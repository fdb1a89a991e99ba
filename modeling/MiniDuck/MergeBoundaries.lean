import MiniDuck.SortedRunMerger

/-!
# Every worker merges the canonical partition

Partition `p` consists of the rows of rank `p * partition_size` up to
`(p + 1) * partition_size`. `cut m p` is where it begins in each run.
Whoever publishes boundaries publishes these: `GlobalOk` says it of the
shared partitions and `StageOk` of the values a worker carries from one
stage to the next. `executeTask_ok` is the step lemma, `Reachable.ok`
the run lemma.

The shared flags and end boundaries only grow (`Grows`), so a step of
one worker cannot break what another one relies on (`StageOk.mono`).
-/

namespace MiniDuck

namespace SortedRunMerger

variable {κ : Type} [LinearOrder κ]

/-- Where partition `p` begins in run `i`. -/
def cut (m : SortedRunMerger κ) (p : Nat) (i : Fin m.numRuns) : Nat :=
  bound m.sortedRuns (p * m.partitionSize) i

variable {m : SortedRunMerger κ} {p q : Nat} {i : Fin m.numRuns}

/-! ## Partitions of the rows -/

theorem total_le : totalCount m.sortedRuns ≤ m.numPartitions * m.partitionSize := by
  have hpos := m.partitionSize_pos
  have hmod := Nat.div_add_mod (totalCount m.sortedRuns + (m.partitionSize - 1)) m.partitionSize
  have hlt := Nat.mod_lt (totalCount m.sortedRuns + (m.partitionSize - 1)) hpos
  rw [Nat.mul_comm, numPartitions]
  omega

theorem mul_lt_total (hp : p < m.numPartitions) :
    p * m.partitionSize < totalCount m.sortedRuns := by
  have hpos := m.partitionSize_pos
  have hle := (Nat.le_div_iff_mul_le hpos).mp (Nat.succ_le_of_lt hp)
  rw [Nat.succ_mul] at hle
  omega

theorem cut_zero : m.cut 0 i = 0 := by
  rw [cut, Nat.zero_mul, bound_zero]

theorem cut_mono (h : p ≤ q) : m.cut p i ≤ m.cut q i :=
  bound_mono (Nat.mul_le_mul_right _ h)

theorem cut_le_count : m.cut p i ≤ (m.sortedRuns i).count := bound_le_count

theorem cut_le_mul : m.cut p i ≤ p * m.partitionSize := bound_le _ _ _

theorem cut_eq_count (h : m.numPartitions ≤ p) : m.cut p i = (m.sortedRuns i).count :=
  bound_of_total_le (total_le.trans (Nat.mul_le_mul_right _ h))

theorem lt_cut_iff {x : Nat} (hx : x < (m.sortedRuns i).count) :
    x < m.cut p i ↔ rank m.sortedRuns i x < p * m.partitionSize :=
  lt_bound_iff hx

/-! ## The invariant of the shared state -/

/-- The end boundaries of partition `p` are computed. -/
def EndsAt (m : SortedRunMerger κ) (p : Nat) (x : MergePartition m.numRuns) : Prop :=
  ∀ i, (x.runBoundaries i).endIdx = m.cut (p + 1) i

/-- A partition holds its canonical boundaries or the initial ones. -/
structure PartitionOk (m : SortedRunMerger κ) (p : Nat) (x : MergePartition m.numRuns) :
    Prop where
  first : p = 0 → x.beginComputed
  begin_computed : x.beginComputed → ∀ i, (x.runBoundaries i).beginIdx = m.cut p i
  begin_initial : x.beginComputed = false → ∀ i, (x.runBoundaries i).beginIdx = 0
  ends : m.EndsAt p x ∨ ∀ i, (x.runBoundaries i).endIdx =
    min (m.sortedRuns i).count ((p + 1) * m.partitionSize)
  scanned : x.scanned → m.EndsAt p x

/-- What another worker may rely on is never taken back. -/
structure PartitionGrows (m : SortedRunMerger κ) (p : Nat) (x y : MergePartition m.numRuns) :
    Prop where
  beginComputed : x.beginComputed → y.beginComputed
  ends : m.EndsAt p x → m.EndsAt p y
  scanned : x.scanned → y.scanned

def GlobalOk (g : GlobalState m) : Prop := ∀ p, m.PartitionOk p (g.partitions p)

def Grows (g g' : GlobalState m) : Prop :=
  ∀ p, m.PartitionGrows p (g.partitions p) (g'.partitions p)

/-- Upper limits that leave room for the cuts at `p + 1`. -/
def Limits (m : SortedRunMerger κ) (p : Nat) (b : Fin m.numRuns → Boundary) : Prop :=
  ∀ i, m.cut (p + 1) i ≤ (b i).endIdx ∧ (b i).endIdx ≤ (m.sortedRuns i).count

def CutAt (m : SortedRunMerger κ) (p : Nat) (b : Fin m.numRuns → Boundary) : Prop :=
  ∀ i, (b i).beginIdx = m.cut p i ∧ (b i).endIdx = m.cut p i

variable {x : MergePartition m.numRuns} {g g' : GlobalState m} {b : Fin m.numRuns → Boundary}

theorem PartitionOk.limits (h : m.PartitionOk p x) : m.Limits p x.runBoundaries := by
  intro i
  rcases h.ends with hcut | hinit
  · rw [hcut i]
    exact ⟨le_rfl, cut_le_count⟩
  · rw [hinit i]
    exact ⟨le_min cut_le_count cut_le_mul, min_le_left _ _⟩

theorem PartitionOk.begin_le (h : m.PartitionOk p x) (i : Fin m.numRuns) :
    (x.runBoundaries i).beginIdx ≤ m.cut p i := by
  cases hc : x.beginComputed with
  | false =>
      rw [h.begin_initial hc i]
      exact Nat.zero_le _
  | true => exact (h.begin_computed hc i).le

/-! ## The writes to a partition -/

theorem PartitionGrows.refl (x : MergePartition m.numRuns) : m.PartitionGrows p x x :=
  ⟨id, id, id⟩

theorem setBegin_computed (x : MergePartition m.numRuns) (b : Fin m.numRuns → Boundary) :
    (x.setBegin b).beginComputed := by
  rw [MergePartition.setBegin]
  split
  · assumption
  · rfl

theorem PartitionGrows.setBegin : m.PartitionGrows p x (x.setBegin b) where
  beginComputed _ := setBegin_computed x b
  ends h := by
    rw [MergePartition.setBegin]
    split <;> exact h
  scanned h := by
    rw [MergePartition.setBegin]
    split <;> exact h

theorem PartitionOk.setBegin (h : m.PartitionOk p x) (hb : m.CutAt p b) :
    m.PartitionOk p (x.setBegin b) := by
  rw [MergePartition.setBegin]
  split
  · exact h
  · exact ⟨fun _ => rfl, fun _ i => (hb i).1, fun hc => (nomatch hc), h.ends, h.scanned⟩

theorem endsAt_setEnd (hb : m.CutAt (p + 1) b) : m.EndsAt p (x.setEnd b) := fun i => (hb i).2

theorem PartitionGrows.setEnd (hb : m.CutAt (p + 1) b) : m.PartitionGrows p x (x.setEnd b) where
  beginComputed h := h
  ends _ := endsAt_setEnd hb
  scanned h := h

theorem PartitionOk.setEnd (h : m.PartitionOk p x) (hb : m.CutAt (p + 1) b) :
    m.PartitionOk p (x.setEnd b) :=
  ⟨h.first, h.begin_computed, h.begin_initial, Or.inl (endsAt_setEnd hb),
    fun _ => endsAt_setEnd hb⟩

theorem PartitionGrows.setScanned : m.PartitionGrows p x x.setScanned :=
  ⟨id, id, fun _ => rfl⟩

theorem PartitionOk.setScanned (h : m.PartitionOk p x) (hends : m.EndsAt p x) :
    m.PartitionOk p x.setScanned :=
  ⟨h.first, h.begin_computed, h.begin_initial, h.ends, fun _ => hends⟩

theorem partitions_modify_self (g : GlobalState m) (p : Nat)
    (f : MergePartition m.numRuns → MergePartition m.numRuns) :
    (g.modify p f).partitions p = f (g.partitions p) :=
  Function.update_self ..

theorem partitions_modify_of_ne (g : GlobalState m)
    (f : MergePartition m.numRuns → MergePartition m.numRuns) (h : q ≠ p) :
    (g.modify p f).partitions q = g.partitions q :=
  Function.update_of_ne h ..

theorem GlobalOk.modify (f : MergePartition m.numRuns → MergePartition m.numRuns)
    (hok : GlobalOk g) (hf : m.PartitionOk p (f (g.partitions p))) : GlobalOk (g.modify p f) := by
  intro q
  rcases eq_or_ne q p with rfl | hne
  · rw [partitions_modify_self]
    exact hf
  · rw [partitions_modify_of_ne g f hne]
    exact hok q

theorem Grows.modify (f : MergePartition m.numRuns → MergePartition m.numRuns)
    (hf : m.PartitionGrows p (g.partitions p) (f (g.partitions p))) : Grows g (g.modify p f) := by
  intro q
  rcases eq_or_ne q p with rfl | hne
  · rw [partitions_modify_self]
    exact hf
  · rw [partitions_modify_of_ne g f hne]
    exact PartitionGrows.refl _

theorem Grows.refl (g : GlobalState m) : Grows g g := fun _ => PartitionGrows.refl _

/-! ## What a worker knows at a stage -/

/-- The end boundaries of partition `q` are stored and the begin
boundaries of the next one published. -/
def Stored (g : GlobalState m) (q : Nat) : Prop :=
  m.EndsAt q (g.partitions q) ∧
    (q + 1 < m.numPartitions → (g.partitions (q + 1)).beginComputed)

/-- A worker computes the boundaries of its own partition `q`, or of the
previous one when its own are already stored. -/
def Computing (g : GlobalState m) (q p : Nat) : Prop :=
  p < m.numPartitions ∧ (p = q ∨ p + 1 = q ∧ Stored g q)

def StageOk (g : GlobalState m) (q : Nat) : Stage κ m.numRuns → Prop
  | .compute p => Computing g q p
  | .search p prev b =>
      Computing g q p ∧ m.Limits p b ∧ (∀ i, (b i).beginIdx = 0) ∧ prev ≤ p
  | .fetch p prev b =>
      Computing g q p ∧ m.Limits p b ∧ prev ≤ p ∧ (g.partitions (prev - 1)).beginComputed
  | .path p st =>
      Computing g q p ∧ p + 1 < m.numPartitions ∧
        PathInv m.sortedRuns ((p + 1) * m.partitionSize) st
  | .check p b => Computing g q p ∧ m.CutAt (p + 1) b
  | .publish p b => Computing g q p ∧ m.CutAt (p + 1) b
  | .store p b =>
      Computing g q p ∧ m.CutAt (p + 1) b ∧
        (p + 1 < m.numPartitions → (g.partitions (p + 1)).beginComputed)
  | .acquire => Stored g q
  | .copy => Stored g q ∧ (g.partitions q).beginComputed
  | .merge b => Stored g q ∧ ∀ i, b i = ⟨m.cut q i, m.cut (q + 1) i⟩
  | .scan b keys _ =>
      Stored g q ∧ (∀ i, b i = ⟨m.cut q i, m.cut (q + 1) i⟩) ∧ keys = m.mergePartition b
  | _ => Stored g q

theorem Stored.mono (h : Grows g g') (hs : Stored g q) : Stored g' q :=
  ⟨(h q).ends hs.1, fun hq => (h (q + 1)).beginComputed (hs.2 hq)⟩

theorem Computing.mono (h : Grows g g') (hc : Computing g q p) : Computing g' q p :=
  ⟨hc.1, hc.2.imp_right fun ⟨hq, hs⟩ => ⟨hq, hs.mono h⟩⟩

/-- The steps of the other workers do not disturb a stage. -/
theorem StageOk.mono (h : Grows g g') :
    ∀ {stage : Stage κ m.numRuns}, StageOk g q stage → StageOk g' q stage
  | .compute _, hc => Computing.mono h hc
  | .search .., ⟨hc, hrest⟩ => ⟨hc.mono h, hrest⟩
  | .fetch .., ⟨hc, hl, hp, hf⟩ => ⟨hc.mono h, hl, hp, (h _).beginComputed hf⟩
  | .path .., ⟨hc, hrest⟩ => ⟨hc.mono h, hrest⟩
  | .check .., ⟨hc, hrest⟩ => ⟨hc.mono h, hrest⟩
  | .publish .., ⟨hc, hrest⟩ => ⟨hc.mono h, hrest⟩
  | .store .., ⟨hc, hb, hf⟩ => ⟨hc.mono h, hb, fun hp => (h _).beginComputed (hf hp)⟩
  | .acquire, hs => Stored.mono h hs
  | .copy, ⟨hs, hf⟩ => ⟨hs.mono h, (h _).beginComputed hf⟩
  | .merge _, ⟨hs, hb⟩ => ⟨hs.mono h, hb⟩
  | .scan .., ⟨hs, hrest⟩ => ⟨hs.mono h, hrest⟩
  | .destroyScanned, hs => Stored.mono h hs
  | .countScanned _, hs => Stored.mono h hs
  | .readBegin .., hs => Stored.mono h hs
  | .readEnd .., hs => Stored.mono h hs
  | .destroyData .., hs => Stored.mono h hs
  | .finish, hs => Stored.mono h hs

/-! ## One step -/

theorem stageOk_beginPath (hc : Computing g q p) (hl : m.Limits p b)
    (hbegin : ∀ i, (b i).beginIdx ≤ m.cut (p + 1) i) : StageOk g q (m.beginPath p b) := by
  rw [beginPath]
  split
  · rename_i hlast
    refine ⟨hc, fun i => ?_⟩
    have hcut : m.cut (p + 1) i = (m.sortedRuns i).count := cut_eq_count (by omega)
    have hle := hl i
    exact ⟨hcut.symm, le_antisymm (hle.2.trans_eq hcut.symm) hle.1⟩
  · rename_i hlast
    have hp : p + 1 < m.numPartitions := by
      have := hc.1
      omega
    refine ⟨hc, hp, PathInv.start (mul_lt_total hp).le hbegin ?_ ?_⟩
    · exact fun i => (hl i).1
    · exact fun i => (hl i).2

variable {stage : Stage κ m.numRuns}

/-- The step lemma: the shared state stays canonical and only grows, and
the worker knows at its next stage what it has to. -/
theorem executeTask_ok (hok : GlobalOk g) (hq : q < m.numPartitions) (w : Fin m.numWorkers)
    (chunk : Bool) (hs : StageOk g q stage) : GlobalOk (m.executeTask g w chunk q stage).1 ∧
      Grows g (m.executeTask g w chunk q stage).1 ∧
      ∀ stage' ∈ (m.executeTask g w chunk q stage).2,
        StageOk (m.executeTask g w chunk q stage).1 q stage' := by
  have hlocal : ∀ g' stage', g'.partitions = g.partitions → StageOk g q stage' →
      GlobalOk g' ∧ Grows g g' ∧ ∀ s ∈ some stage', StageOk g' q s := by
    intro g' stage' heq h
    have hgrows : Grows g g' := by
      intro p
      rw [heq]
      exact PartitionGrows.refl _
    refine ⟨fun p => heq ▸ hok p, hgrows, fun s hs => ?_⟩
    cases hs
    exact h.mono hgrows
  cases stage with
  | compute p =>
      rw [executeTask]
      split
      · refine hlocal g _ rfl (stageOk_beginPath hs (hok p).limits fun i => ?_)
        exact ((hok p).begin_le i).trans (cut_mono (Nat.le_succ p))
      · rename_i hflag
        exact hlocal g _ rfl
          ⟨hs, (hok p).limits, (hok p).begin_initial (by simpa using hflag), le_rfl⟩
  | search p prev b =>
      obtain ⟨hc, hl, hzero, hprev⟩ := hs
      rw [executeTask]
      split
      · split
        · exact hlocal g _ rfl ⟨hc, hl, hprev, ‹_›⟩
        · exact hlocal g _ rfl ⟨hc, hl, hzero, (Nat.sub_le _ _).trans hprev⟩
      · refine hlocal g _ rfl (stageOk_beginPath hc hl fun i => ?_)
        rw [hzero i]
        exact Nat.zero_le _
  | fetch p prev b =>
      obtain ⟨hc, hl, hprev, hflag⟩ := hs
      refine hlocal g _ rfl (stageOk_beginPath hc hl fun i => ?_)
      exact ((hok (prev - 1)).begin_le i).trans (cut_mono (by omega))
  | path p st =>
      obtain ⟨hc, hp, hinv⟩ := hs
      have hT := (mul_lt_total hp).le
      rw [executeTask]
      split
      · rename_i hzero
        have hcut := hinv.boundary_eq hT hzero
        exact hlocal g _ rfl ⟨hc, fun i => ⟨hcut i, hcut i⟩⟩
      · rename_i hne
        obtain ⟨st', hstep, hinv', _, _⟩ := hinv.step hT hne
        rw [hstep]
        exact hlocal g _ rfl ⟨hc, hp, hinv'⟩
  | check p b =>
      obtain ⟨hc, hb⟩ := hs
      rw [executeTask]
      split
      · rename_i hor
        refine hlocal g _ rfl ⟨hc, hb, fun hp => ?_⟩
        rcases hor with hlast | hflag
        · omega
        · exact hflag
      · exact hlocal g _ rfl ⟨hc, hb⟩
  | publish p b =>
      obtain ⟨hc, hb⟩ := hs
      have hgrows := Grows.modify (g := g) (p := p + 1) (·.setBegin b) PartitionGrows.setBegin
      refine ⟨GlobalOk.modify (·.setBegin b) hok ((hok (p + 1)).setBegin hb), hgrows, ?_⟩
      rintro _ ⟨⟩
      refine ⟨hc.mono hgrows, hb, fun _ => ?_⟩
      rw [executeTask, partitions_modify_self]
      exact setBegin_computed _ b
  | store p b =>
      obtain ⟨hc, hb, hnext⟩ := hs
      have hgrows := Grows.modify (g := g) (·.setEnd b) (PartitionGrows.setEnd hb)
      refine ⟨GlobalOk.modify (·.setEnd b) hok ((hok p).setEnd hb), hgrows, ?_⟩
      rintro _ ⟨⟩
      show StageOk (g.modify p (·.setEnd b)) q _
      rcases hc.2 with rfl | ⟨rfl, hstored⟩
      · rw [if_pos rfl]
        refine ⟨?_, fun hp => (hgrows (p + 1)).beginComputed (hnext hp)⟩
        rw [partitions_modify_self]
        exact endsAt_setEnd hb
      · rw [if_neg (by omega)]
        exact ⟨hstored.mono hgrows, (hgrows (p + 1)).beginComputed (hnext hq)⟩
  | acquire =>
      rw [executeTask]
      split
      · exact hlocal g _ rfl ⟨hs, ‹_›⟩
      · rename_i hflag
        have hpos : q ≠ 0 := fun h0 => hflag ((hok q).first h0)
        exact hlocal g _ rfl ⟨by omega, Or.inr ⟨by omega, hs⟩⟩
  | copy =>
      obtain ⟨hstored, hflag⟩ := hs
      refine hlocal g _ rfl ⟨hstored, fun i => ?_⟩
      rw [← (hok q).begin_computed hflag i, ← hstored.1 i]
  | merge b => exact hlocal g _ rfl ⟨hs.1, hs.2, rfl⟩
  | scan b keys index =>
      rw [executeTask]
      split
      · exact hlocal g _ rfl hs
      · exact hlocal g _ rfl hs.1
  | destroyScanned =>
      rw [executeTask]
      split
      · exact hlocal _ _ rfl hs
      · exact hlocal g _ rfl hs
  | countScanned e =>
      rw [executeTask]
      split
      · exact hlocal g _ rfl hs
      · split
        · exact hlocal _ _ rfl hs
        · exact hlocal g _ rfl hs
  | readBegin e i =>
      rw [executeTask]
      split
      · exact hlocal g _ rfl hs
      · exact hlocal _ _ rfl hs
  | readEnd e i beginIdx => exact hlocal g _ rfl hs
  | destroyData e i beginIdx endIdx => exact hlocal _ _ rfl hs
  | finish =>
      refine ⟨GlobalOk.modify (·.setScanned) hok ((hok q).setScanned hs.1),
        Grows.modify (·.setScanned) PartitionGrows.setScanned, ?_⟩
      rintro _ ⟨⟩

/-! ## Every run -/

theorem executeTask_next (g : GlobalState m) (w : Fin m.numWorkers) (chunk : Bool) (q : Nat)
    (stage : Stage κ m.numRuns) :
    (m.executeTask g w chunk q stage).1.nextPartitionIdx = g.nextPartitionIdx := by
  cases stage <;> rw [executeTask] <;> repeat' (first | rfl | split)

theorem step_of_none {s : State m} {w : Fin m.numWorkers} (chunk : Bool)
    (hw : s.workers w = none) : m.step s w chunk =
      if s.globalState.nextPartitionIdx = m.numPartitions then s
      else
        { globalState :=
            { s.globalState with nextPartitionIdx := s.globalState.nextPartitionIdx + 1 }
          workers := Function.update s.workers w
            (some ⟨s.globalState.nextPartitionIdx, .compute s.globalState.nextPartitionIdx⟩) } := by
  rw [step, hw]

theorem step_of_some {s : State m} {w : Fin m.numWorkers} (chunk : Bool)
    (hw : s.workers w = some ⟨q, stage⟩) : m.step s w chunk =
      { globalState := (m.executeTask s.globalState w chunk q stage).1
        workers := Function.update s.workers w
          ((m.executeTask s.globalState w chunk q stage).2.map (Task.mk q)) } := by
  rw [step, hw]

structure StateOk (s : State m) : Prop where
  next_le : s.globalState.nextPartitionIdx ≤ m.numPartitions
  shared : GlobalOk s.globalState
  tasks : ∀ w t, s.workers w = some t →
    t.partitionIdx < m.numPartitions ∧ StageOk s.globalState t.partitionIdx t.stage

theorem stateOk_initial : StateOk m.initial where
  next_le := Nat.zero_le _
  shared p := by
    refine ⟨fun h => beq_iff_eq.mpr h, fun h i => ?_, fun _ _ => rfl, Or.inr fun _ => rfl, ?_⟩
    · obtain rfl : p = 0 := beq_iff_eq.mp h
      exact cut_zero.symm
    · exact fun h => (nomatch h)
  tasks _ _ h := (nomatch h)

theorem StateOk.step {s : State m} (h : StateOk s) (w : Fin m.numWorkers) (chunk : Bool) :
    StateOk (m.step s w chunk) := by
  cases hworker : s.workers w with
  | none =>
    rw [step_of_none chunk hworker]
    split
    · exact h
    · rename_i hne
      have hlt := lt_of_le_of_ne h.next_le hne
      refine ⟨hlt, h.shared, fun w' t ht => ?_⟩
      rcases eq_or_ne w' w with rfl | hw
      · have ht' := (Function.update_self w' _ s.workers).symm.trans ht
        obtain rfl := Option.some.inj ht'
        exact ⟨hlt, hlt, Or.inl rfl⟩
      · exact h.tasks w' t ((Function.update_of_ne hw _ s.workers).symm.trans ht)
  | some task =>
    obtain ⟨q, stage⟩ := task
    obtain ⟨hq, hs⟩ := h.tasks w _ hworker
    rw [step_of_some chunk hworker]
    obtain ⟨hok, hgrows, hstage⟩ := executeTask_ok h.shared hq w chunk hs
    refine ⟨(executeTask_next ..).trans_le h.next_le, hok, fun w' t ht => ?_⟩
    rcases eq_or_ne w' w with rfl | hw
    · have ht' := (Function.update_self w' _ s.workers).symm.trans ht
      obtain ⟨stage', hmem, rfl⟩ := Option.map_eq_some_iff.mp ht'
      exact ⟨hq, hstage stage' hmem⟩
    · obtain ⟨hq', hs'⟩ := h.tasks w' t ((Function.update_of_ne hw _ s.workers).symm.trans ht)
      exact ⟨hq', hs'.mono hgrows⟩

def run (m : SortedRunMerger κ) (labels : List (Fin m.numWorkers × Bool)) : State m :=
  labels.foldl (fun s l => m.step s l.1 l.2) m.initial

theorem reachable_run (labels : List (Fin m.numWorkers × Bool)) :
    m.lts.Reachable (m.run labels) := by
  have hfold : ∀ s, m.lts.Reachable s →
      m.lts.Reachable (labels.foldl (fun s l => m.step s l.1 l.2) s) := by
    induction labels with
    | nil => exact fun s hr => hr
    | cons l rest ih => exact fun s hr => ih _ (hr.step (l := l) rfl)
  exact hfold _ (Lts.Reachable.init rfl)

theorem Reachable.ok {s : State m} (hr : m.lts.Reachable s) : StateOk s := by
  refine hr.invariant ?_ ?_
  · rintro _ rfl
    exact stateOk_initial
  · rintro s l _ _ h rfl
    exact h.step l.1 l.2

/-! ## The boundaries are acquired -/

/-- Steps of `ComputePartitionBoundaries` for `p`. -/
def computeBudget (m : SortedRunMerger κ) (p : Nat) : Nat := 6 + p + (p + 1) * m.partitionSize

/-- Steps that remain once the boundaries of `p` are stored. -/
def budgetAfter (m : SortedRunMerger κ) (q p : Nat) : Nat :=
  if p = q then m.computeBudget (q - 1) + 2 else 1

/-- A bound on the steps a worker takes until it has its boundaries. -/
def budget (m : SortedRunMerger κ) (q : Nat) : Stage κ m.numRuns → Nat
  | .compute p => m.computeBudget p + m.budgetAfter q p
  | .search p prev _ => 5 + prev + (p + 1) * m.partitionSize + m.budgetAfter q p
  | .fetch p _ _ => 5 + (p + 1) * m.partitionSize + m.budgetAfter q p
  | .path p st => 4 + st.remaining + m.budgetAfter q p
  | .check p _ => 3 + m.budgetAfter q p
  | .publish p _ => 2 + m.budgetAfter q p
  | .store p _ => 1 + m.budgetAfter q p
  | .acquire => m.computeBudget (q - 1) + 2
  | .copy => 1
  | _ => 0

theorem budget_beginPath : m.budget q (m.beginPath p b) ≤
    4 + (p + 1) * m.partitionSize + m.budgetAfter q p := by
  rw [beginPath]
  split
  · simp only [budget]
    omega
  · have hle : (PathState.start b ((p + 1) * m.partitionSize)).remaining ≤
        (p + 1) * m.partitionSize := Nat.sub_le _ _
    simp only [budget]
    omega

/-- Each step of a worker that computes or acquires boundaries brings it
closer to having them. -/
theorem executeTask_budget (hok : GlobalOk g) (w : Fin m.numWorkers) (chunk : Bool)
    (hs : StageOk g q stage) (hbudget : m.budget q stage ≠ 0) :
    ∃ stage', (m.executeTask g w chunk q stage).2 = some stage' ∧
      m.budget q stage' < m.budget q stage ∧
      (m.budget q stage' = 0 → ∃ b, stage' = .merge b) := by
  have hpath : ∀ b p, m.budget q (m.beginPath p b) = 0 →
      ∃ b', m.beginPath p b = .merge b' := by
    intro b p h0
    rw [beginPath] at h0
    split at h0 <;> simp only [budget] at h0 <;> omega
  cases stage with
  | compute p =>
      have hle := budget_beginPath (q := q) (p := p) (b := (g.partitions p).runBoundaries)
      rw [executeTask]
      split
      · refine ⟨_, rfl, ?_, hpath _ _⟩
        rw [budget, computeBudget]
        omega
      · refine ⟨_, rfl, ?_, fun h0 => absurd h0 (by rw [budget]; omega)⟩
        simp only [budget, computeBudget]
        omega
  | search p prev b =>
      have hle := budget_beginPath (q := q) (p := p) (b := b)
      rw [executeTask]
      split
      · split
        · refine ⟨_, rfl, ?_, fun h0 => absurd h0 (by rw [budget]; omega)⟩
          simp only [budget]
          omega
        · refine ⟨_, rfl, ?_, fun h0 => absurd h0 (by rw [budget]; omega)⟩
          simp only [budget]
          omega
      · refine ⟨_, rfl, ?_, hpath _ _⟩
        rw [budget]
        omega
  | fetch p prev b =>
      refine ⟨_, rfl, ?_, hpath _ _⟩
      refine budget_beginPath.trans_lt ?_
      rw [budget]
      omega
  | path p st =>
      obtain ⟨_, hp, hinv⟩ := hs
      rw [executeTask]
      split
      · refine ⟨_, rfl, ?_, fun h0 => absurd h0 (by rw [budget]; omega)⟩
        simp only [budget]
        omega
      · rename_i hne
        obtain ⟨st', hstep, _, hlt, _⟩ := hinv.step (mul_lt_total hp).le hne
        rw [hstep]
        refine ⟨_, rfl, ?_, fun h0 => absurd h0 (by rw [budget]; omega)⟩
        simp only [budget]
        omega
  | check p b =>
      rw [executeTask]
      split
      · refine ⟨_, rfl, ?_, fun h0 => absurd h0 (by rw [budget]; omega)⟩
        simp only [budget]
        omega
      · refine ⟨_, rfl, ?_, fun h0 => absurd h0 (by rw [budget]; omega)⟩
        simp only [budget]
        omega
  | publish p b =>
      refine ⟨_, rfl, ?_, fun h0 => absurd h0 (by rw [budget]; omega)⟩
      simp only [budget]
      omega
  | store p b =>
      by_cases hpq : p = q
      · refine ⟨.acquire, by rw [executeTask, if_pos hpq], ?_, fun h0 => ?_⟩
        · rw [budget, budget, budgetAfter, if_pos hpq]
          omega
        · exact absurd h0 (by rw [budget]; omega)
      · refine ⟨.copy, by rw [executeTask, if_neg hpq], ?_, fun h0 => ?_⟩
        · rw [budget, budget, budgetAfter, if_neg hpq]
          omega
        · exact absurd h0 Nat.one_ne_zero
  | acquire =>
      rw [executeTask]
      split
      · refine ⟨_, rfl, ?_, fun h0 => absurd h0 (by rw [budget]; omega)⟩
        simp only [budget]
        omega
      · rename_i hflag
        have hpos : q ≠ 0 := fun h0 => hflag ((hok q).first h0)
        refine ⟨_, rfl, ?_, fun h0 => absurd h0 (by rw [budget, computeBudget]; omega)⟩
        rw [budget, budget, budgetAfter, if_neg (by omega)]
        omega
  | copy => exact ⟨_, rfl, Nat.zero_lt_one, fun _ => ⟨_, rfl⟩⟩
  | merge b => exact absurd rfl hbudget
  | scan b keys index => exact absurd rfl hbudget
  | destroyScanned => exact absurd rfl hbudget
  | countScanned e => exact absurd rfl hbudget
  | readBegin e i => exact absurd rfl hbudget
  | readEnd e i beginIdx => exact absurd rfl hbudget
  | destroyData e i beginIdx endIdx => exact absurd rfl hbudget
  | finish => exact absurd rfl hbudget

/-! ## The canonical partitions -/

/-- `b` selects the rows of partition `p`, of rank `p * partition_size`
up to `(p + 1) * partition_size`, and they fit the merge buffer. -/
structure Canonical (m : SortedRunMerger κ) (p : Nat) (b : Fin m.numRuns → Boundary) : Prop where
  lt_num : p < m.numPartitions
  begin_le_end : ∀ i, (b i).beginIdx ≤ (b i).endIdx
  end_le_count : ∀ i, (b i).endIdx ≤ (m.sortedRuns i).count
  begin_eq : ∀ i, (b i).beginIdx = bound m.sortedRuns (p * m.partitionSize) i
  end_eq : ∀ i, (b i).endIdx = bound m.sortedRuns ((p + 1) * m.partitionSize) i
  row_iff : ∀ i x, x < (m.sortedRuns i).count →
    ((b i).beginIdx ≤ x ∧ x < (b i).endIdx ↔
      p * m.partitionSize ≤ rank m.sortedRuns i x ∧
        rank m.sortedRuns i x < (p + 1) * m.partitionSize)
  size : p + 1 < m.numPartitions → ∑ i, ((b i).endIdx - (b i).beginIdx) = m.partitionSize
  fits : (m.mergePartition b).length ≤ m.partitionSize

theorem length_mergePartition (b : Fin m.numRuns → Boundary) :
    (m.mergePartition b).length = ∑ i, ((b i).endIdx - (b i).beginIdx) := by
  have hkeys : ((List.finRange m.numRuns).flatMap fun i =>
      (List.range' (b i).beginIdx ((b i).endIdx - (b i).beginIdx)).map
        (m.sortedRuns i).key).length = ∑ i, ((b i).endIdx - (b i).beginIdx) := by
    rw [List.length_flatMap, Fin.sum_univ_def]
    simp only [List.length_map, List.length_range']
  rw [mergePartition]
  split
  · exact hkeys
  · rw [List.length_mergeSort]
    exact hkeys

theorem sum_cut (p : Nat) : ∑ i, (m.cut (p + 1) i - m.cut p i) =
    min ((p + 1) * m.partitionSize) (totalCount m.sortedRuns) -
      min (p * m.partitionSize) (totalCount m.sortedRuns) := by
  rw [Finset.sum_tsub_distrib _ fun i _ => cut_mono (Nat.le_succ p)]
  simp only [cut, sum_bound]

theorem canonical_cut (hp : p < m.numPartitions)
    (hb : ∀ i, b i = ⟨m.cut p i, m.cut (p + 1) i⟩) : m.Canonical p b := by
  have hsum : ∑ i, ((b i).endIdx - (b i).beginIdx) =
      min ((p + 1) * m.partitionSize) (totalCount m.sortedRuns) -
        min (p * m.partitionSize) (totalCount m.sortedRuns) := by
    rw [← sum_cut]
    simp only [hb]
  have hmul : (p + 1) * m.partitionSize = p * m.partitionSize + m.partitionSize :=
    Nat.succ_mul _ _
  have hlt := mul_lt_total hp
  refine ⟨hp, ?_, ?_, ?_, ?_, ?_, ?_, ?_⟩
  · intro i
    rw [hb]
    exact cut_mono (Nat.le_succ p)
  · intro i
    rw [hb]
    exact cut_le_count
  · intro i
    rw [hb]
    rfl
  · intro i
    rw [hb]
    rfl
  · intro i x hx
    rw [hb, ← not_lt, lt_cut_iff hx, lt_cut_iff hx, not_lt]
  · intro hnext
    have hle := mul_lt_total hnext
    rw [hsum]
    omega
  · rw [length_mergePartition, hsum]
    omega

theorem Canonical.adjoin {b' : Fin m.numRuns → Boundary} (h : m.Canonical p b)
    (h' : m.Canonical (p + 1) b') (i : Fin m.numRuns) : (b i).endIdx = (b' i).beginIdx := by
  rw [h.end_eq, h'.begin_eq]

theorem Canonical.key_le {b' : Fin m.numRuns → Boundary} (h : m.Canonical p b)
    (h' : m.Canonical (p + 1) b') {i j : Fin m.numRuns} {x y : Nat}
    (hx : (b i).beginIdx ≤ x ∧ x < (b i).endIdx) (hy : (b' j).beginIdx ≤ y ∧ y < (b' j).endIdx) :
    (m.sortedRuns i).key x ≤ (m.sortedRuns j).key y := by
  have hxc := hx.2.trans_le (h.end_le_count i)
  have hyc := hy.2.trans_le (h'.end_le_count j)
  exact key_le_of_rank_lt hxc
    (((h.row_iff i x hxc).mp hx).2.trans_le ((h'.row_iff j y hyc).mp hy).1)

theorem existsUnique_partition {x : Nat} (hx : x < (m.sortedRuns i).count) :
    ∃! p, p < m.numPartitions ∧ m.cut p i ≤ x ∧ x < m.cut (p + 1) i := by
  have hpos := m.partitionSize_pos
  have hiff : ∀ p, m.cut p i ≤ x ∧ x < m.cut (p + 1) i ↔
      rank m.sortedRuns i x / m.partitionSize = p := by
    intro p
    rw [← not_lt, lt_cut_iff hx, lt_cut_iff hx, not_lt, Nat.div_eq_iff hpos, Nat.succ_mul]
    omega
  refine ⟨rank m.sortedRuns i x / m.partitionSize, ⟨?_, (hiff _).mpr rfl⟩, ?_⟩
  · rw [Nat.div_lt_iff_lt_mul hpos]
    exact (rank_lt_total hx).trans_le total_le
  · rintro p ⟨_, hp⟩
    exact ((hiff p).mp hp).symm

theorem StageOk.canonical (hq : q < m.numPartitions) (hs : StageOk g q stage)
    (hb : stage.acquired = some b) : m.Canonical q b := by
  cases stage with
  | merge b' =>
      obtain rfl := Option.some.inj hb
      exact canonical_cut hq hs.2
  | scan b' keys index =>
      obtain rfl := Option.some.inj hb
      exact canonical_cut hq hs.2.1
  | _ => cases hb

/-- In every interleaving, a worker that has a partition gets its
boundaries after a bounded number of its own steps, whatever the others
do in between. They are the canonical ones. So the partitions that any
two workers merge, at any time, adjoin in the order of their keys, and
together they cover every row once. -/
theorem merge_partitions_canonical {s : State m} (hr : m.lts.Reachable s) :
    (∀ w chunk q stage, s.workers w = some ⟨q, stage⟩ → m.budget q stage ≠ 0 →
      ∃ stage', (m.step s w chunk).workers w = some ⟨q, stage'⟩ ∧
        m.budget q stage' < m.budget q stage ∧
        (m.budget q stage' = 0 → ∃ b, stage'.acquired = some b)) ∧
    (∀ w q stage b, s.workers w = some ⟨q, stage⟩ → stage.acquired = some b →
      m.Canonical q b) ∧
    (∀ s', m.lts.Reachable s' → ∀ w w' q stage stage' b b',
      s.workers w = some ⟨q, stage⟩ → stage.acquired = some b →
      s'.workers w' = some ⟨q + 1, stage'⟩ → stage'.acquired = some b' →
      (∀ i, (b i).endIdx = (b' i).beginIdx) ∧
        ∀ i j x y, (b i).beginIdx ≤ x ∧ x < (b i).endIdx →
          (b' j).beginIdx ≤ y ∧ y < (b' j).endIdx →
          (m.sortedRuns i).key x ≤ (m.sortedRuns j).key y) ∧
    ∀ i x, x < (m.sortedRuns i).count →
      ∃! p, p < m.numPartitions ∧
        bound m.sortedRuns (p * m.partitionSize) i ≤ x ∧
        x < bound m.sortedRuns ((p + 1) * m.partitionSize) i := by
  have hcanonical : ∀ s, m.lts.Reachable s → ∀ w q stage b,
      s.workers w = some ⟨q, stage⟩ → stage.acquired = some b → m.Canonical q b := by
    intro s hr w q stage b hw hb
    obtain ⟨hq, hs⟩ := (Reachable.ok hr).tasks w _ hw
    exact hs.canonical hq hb
  refine ⟨?_, hcanonical s hr, ?_, fun i x hx => existsUnique_partition hx⟩
  · intro w chunk q stage hw hbudget
    have hok := Reachable.ok hr
    obtain ⟨stage', hstep, hlt, hmerge⟩ :=
      executeTask_budget hok.shared w chunk (hok.tasks w _ hw).2 hbudget
    refine ⟨stage', ?_, hlt, fun h0 => ?_⟩
    · rw [step_of_some chunk hw]
      show Function.update s.workers w _ w = _
      rw [Function.update_self, hstep]
      rfl
    · obtain ⟨b, rfl⟩ := hmerge h0
      exact ⟨b, rfl⟩
  · intro s' hr' w w' q stage stage' b b' hw hb hw' hb'
    have h := hcanonical s hr w q stage b hw hb
    have h' := hcanonical s' hr' w' (q + 1) stage' b' hw' hb'
    exact ⟨h.adjoin h', fun i j x y hx hy => h.key_le h' hx hy⟩

def twoRuns : SortedRunMerger Nat where
  numRuns := 2
  sortedRuns i := ⟨2, fun x => if x = 0 then 1 else 2 + i, fun x y hxy hy => by
    rcases Nat.eq_zero_or_pos x with rfl | hx
    · rw [if_pos rfl]
      split <;> omega
    · rw [if_neg hx.ne', if_neg (hx.trans_le hxy).ne']⟩
  partitionSize := 2
  partitionSize_pos := Nat.zero_lt_two
  external := true
  isIndexSort := false
  numThreads := 2
  tuplesPerBlock := 1
  numWorkers := 2

/-- The workers of `twoRuns`. -/
def twoRunsWorker (i : Fin 2) : Fin twoRuns.numWorkers := i

theorem merge_partitions_canonical_twoRuns :
    ∃ s b, twoRuns.lts.Reachable s ∧ s.workers (twoRunsWorker 0) = some ⟨0, .merge b⟩ ∧
      (∀ i, b i = ⟨0, 1⟩) ∧ twoRuns.Canonical 0 b := by
  have hr := twoRuns.reachable_run (List.replicate 10 (twoRunsWorker 0, true))
  refine ⟨_, _, hr, rfl, ?_, (merge_partitions_canonical hr).2.1 (twoRunsWorker 0) 0 _ _ rfl rfl⟩
  decide

end SortedRunMerger

end MiniDuck
