import MiniDuck.MergeBoundaries

/-!
# An external merge destroys no row that is still read

`DestroyScannedData` stays `num_threads` partitions behind the first
partition that is not scanned. Two counts make that enough.

- Partitions are assigned in order and one worker has one partition. So
  the begin boundaries of one of the last `num_threads` partitions up to
  the own one are published (`AssignOk.exists_published`), and a
  boundary computation starts no lower (`Anchored`).
- The partition a worker has is not scanned, so the destroyed rows end
  before those begin boundaries (`lt_of_unscanned`).

The destroyed ranges of a run follow one another: each begins where the
destroyed rows ended (`DestroyOk`, `Destroying`).
-/

namespace MiniDuck

namespace SortedRunMerger

variable {κ : Type} [LinearOrder κ] {m : SortedRunMerger κ} {p q : Nat}
  {g g' : GlobalState m} {w w' : Fin m.numWorkers} {stage : Stage κ m.numRuns} {s : State m}

/-! ## Who has which partition -/

structure AssignOk (s : State m) : Prop where
  lt_next : ∀ w t, s.workers w = some t → t.partitionIdx < s.globalState.nextPartitionIdx
  unscanned : ∀ w t, s.workers w = some t →
    (s.globalState.partitions t.partitionIdx).scanned = false
  distinct : ∀ w w' t t', s.workers w = some t → s.workers w' = some t' →
    t.partitionIdx = t'.partitionIdx → w = w'
  scanned_lt : ∀ p, (s.globalState.partitions p).scanned → p < s.globalState.nextPartitionIdx
  published : ∀ p, p < s.globalState.nextPartitionIdx → p + 1 < m.numPartitions →
    (s.globalState.partitions (p + 1)).beginComputed ∨
      ∃ w t, s.workers w = some t ∧ t.partitionIdx = p

theorem partitions_modify_scanned (g : GlobalState m)
    (f : MergePartition m.numRuns → MergePartition m.numRuns) (hf : ∀ x, (f x).scanned = x.scanned) (p q : Nat) :
    ((g.modify p f).partitions q).scanned = (g.partitions q).scanned := by
  rcases eq_or_ne q p with rfl | hne
  · rw [partitions_modify_self, hf]
  · rw [partitions_modify_of_ne g f hne]

theorem scanned_modify_setScanned : ((g.modify q (·.setScanned)).partitions p).scanned ↔
    p = q ∨ (g.partitions p).scanned := by
  rcases eq_or_ne p q with rfl | hne
  · rw [partitions_modify_self]
    exact ⟨fun _ => Or.inl rfl, fun _ => rfl⟩
  · rw [partitions_modify_of_ne g _ hne]
    exact ⟨Or.inr, fun h => h.resolve_left hne⟩

/-- A step of a task marks its partition as scanned and ends the task,
or changes no scanned flag. -/
theorem executeTask_scanned (g : GlobalState m) (w : Fin m.numWorkers) (chunk : Bool) (q : Nat)
    (stage : Stage κ m.numRuns) :
    (stage = .finish ∧ m.executeTask g w chunk q stage = (g.modify q (·.setScanned), none)) ∨
      ∃ stage', (m.executeTask g w chunk q stage).2 = some stage' ∧
        ∀ p, ((m.executeTask g w chunk q stage).1.partitions p).scanned =
          (g.partitions p).scanned := by
  cases stage with
  | finish => exact Or.inl ⟨rfl, rfl⟩
  | publish p b =>
      refine Or.inr ⟨_, rfl, partitions_modify_scanned g (·.setBegin b) (fun x => ?_) (p + 1)⟩
      rw [MergePartition.setBegin]
      split <;> rfl
  | store p b =>
      exact Or.inr ⟨_, rfl, partitions_modify_scanned g (·.setEnd b) (fun _ => rfl) p⟩
  | _ =>
      refine Or.inr ?_
      rw [executeTask]
      repeat' (first | exact ⟨_, rfl, fun _ => rfl⟩ | split)

theorem AssignOk.of_same {s' : State m} (h : AssignOk s)
    (hnext : s'.globalState.nextPartitionIdx = s.globalState.nextPartitionIdx)
    (hscan : ∀ p, (s'.globalState.partitions p).scanned = (s.globalState.partitions p).scanned)
    (hgrows : Grows s.globalState s'.globalState)
    (hsame : ∀ w, (s'.workers w).map Task.partitionIdx =
      (s.workers w).map Task.partitionIdx) : AssignOk s' := by
  have hback : ∀ w t, s'.workers w = some t →
      ∃ t', s.workers w = some t' ∧ t'.partitionIdx = t.partitionIdx := by
    intro w t ht
    have hmap := hsame w
    rw [ht] at hmap
    exact Option.map_eq_some_iff.mp hmap.symm
  refine ⟨?_, ?_, ?_, ?_, ?_⟩
  · intro w t ht
    obtain ⟨t', ht', heq⟩ := hback w t ht
    rw [← heq, hnext]
    exact h.lt_next w t' ht'
  · intro w t ht
    obtain ⟨t', ht', heq⟩ := hback w t ht
    rw [← heq, hscan]
    exact h.unscanned w t' ht'
  · intro w1 w2 t1 t2 h1 h2 heq
    obtain ⟨t1', h1', heq1⟩ := hback w1 t1 h1
    obtain ⟨t2', h2', heq2⟩ := hback w2 t2 h2
    exact h.distinct w1 w2 t1' t2' h1' h2' (heq1.trans (heq.trans heq2.symm))
  · intro p hp
    rw [hscan] at hp
    rw [hnext]
    exact h.scanned_lt p hp
  · intro p hp hnum
    rw [hnext] at hp
    rcases h.published p hp hnum with hflag | ⟨w, t, ht, rfl⟩
    · exact Or.inl ((hgrows (p + 1)).beginComputed hflag)
    · have hmap := hsame w
      rw [ht] at hmap
      obtain ⟨t', ht', heq⟩ := Option.map_eq_some_iff.mp hmap
      exact Or.inr ⟨w, t', ht', heq⟩

theorem AssignOk.finish (h : AssignOk s) (hw : s.workers w = some ⟨q, stage⟩)
    (hstored : Stored s.globalState q) :
    AssignOk ⟨s.globalState.modify q (·.setScanned), Function.update s.workers w none⟩ := by
  have hother : ∀ w' t, Function.update s.workers w none w' = some t →
      w' ≠ w ∧ s.workers w' = some t := by
    intro w' t ht
    rcases eq_or_ne w' w with rfl | hne
    · rw [Function.update_self] at ht
      cases ht
    · rw [Function.update_of_ne hne] at ht
      exact ⟨hne, ht⟩
  have hgrows := Grows.modify (g := s.globalState) (p := q) (·.setScanned)
    PartitionGrows.setScanned
  refine ⟨?_, ?_, ?_, ?_, ?_⟩
  · intro w' t ht
    exact h.lt_next w' t (hother w' t ht).2
  · intro w' t ht
    obtain ⟨hne, ht⟩ := hother w' t ht
    have hneq : t.partitionIdx ≠ q := fun he => hne (h.distinct w' w t _ ht hw he)
    show ((s.globalState.modify q _).partitions _).scanned = false
    rw [partitions_modify_of_ne s.globalState _ hneq]
    exact h.unscanned w' t ht
  · intro w1 w2 t1 t2 h1 h2
    exact h.distinct w1 w2 t1 t2 (hother w1 t1 h1).2 (hother w2 t2 h2).2
  · intro p hp
    rcases scanned_modify_setScanned.mp hp with rfl | hp
    · exact h.lt_next w _ hw
    · exact h.scanned_lt p hp
  · intro p hp hnum
    rcases h.published p hp hnum with hflag | ⟨w', t, ht, rfl⟩
    · exact Or.inl ((hgrows (p + 1)).beginComputed hflag)
    · rcases eq_or_ne w' w with rfl | hne
      · obtain rfl := Option.some.inj (hw.symm.trans ht)
        exact Or.inl ((hgrows _).beginComputed (hstored.2 hnum))
      · refine Or.inr ⟨w', t, ?_, rfl⟩
        show Function.update s.workers w _ w' = some t
        rw [Function.update_of_ne hne, ht]

theorem AssignOk.assign (h : AssignOk s) (hw : s.workers w = none) :
    AssignOk (m := m)
      { globalState :=
          { s.globalState with nextPartitionIdx := s.globalState.nextPartitionIdx + 1 }
        workers := Function.update s.workers w
          (some ⟨s.globalState.nextPartitionIdx, .compute s.globalState.nextPartitionIdx⟩) } := by
  have hother : ∀ w' t, Function.update s.workers w
      (some ⟨s.globalState.nextPartitionIdx, .compute s.globalState.nextPartitionIdx⟩) w' =
        some t → w' = w ∧ t.partitionIdx = s.globalState.nextPartitionIdx ∨
          w' ≠ w ∧ s.workers w' = some t := by
    intro w' t ht
    rcases eq_or_ne w' w with rfl | hne
    · rw [Function.update_self] at ht
      obtain rfl := Option.some.inj ht
      exact Or.inl ⟨rfl, rfl⟩
    · rw [Function.update_of_ne hne] at ht
      exact Or.inr ⟨hne, ht⟩
  have hfresh : (s.globalState.partitions s.globalState.nextPartitionIdx).scanned = false := by
    by_contra hscan
    exact lt_irrefl _ (h.scanned_lt _ (Bool.eq_true_of_not_eq_false hscan))
  refine ⟨?_, ?_, ?_, ?_, ?_⟩
  · intro w' t ht
    rcases hother w' t ht with ⟨-, heq⟩ | ⟨-, ht⟩
    · exact heq.trans_lt (Nat.lt_succ_self _)
    · exact (h.lt_next w' t ht).trans (Nat.lt_succ_self _)
  · intro w' t ht
    rcases hother w' t ht with ⟨-, heq⟩ | ⟨-, ht⟩
    · rw [heq]
      exact hfresh
    · exact h.unscanned w' t ht
  · intro w1 w2 t1 t2 h1 h2 heq
    rcases hother w1 t1 h1 with ⟨hw1, heq1⟩ | ⟨-, ht1⟩
    · rcases hother w2 t2 h2 with ⟨hw2, -⟩ | ⟨-, ht2⟩
      · exact hw1.trans hw2.symm
      · exact absurd (h.lt_next w2 t2 ht2) (by omega)
    · rcases hother w2 t2 h2 with ⟨-, heq2⟩ | ⟨-, ht2⟩
      · exact absurd (h.lt_next w1 t1 ht1) (by omega)
      · exact h.distinct w1 w2 t1 t2 ht1 ht2 heq
  · intro p hp
    exact (h.scanned_lt p hp).trans (Nat.lt_succ_self _)
  · intro p hp hnum
    rcases Nat.lt_succ_iff_lt_or_eq.mp hp with hlt | rfl
    · rcases h.published p hlt hnum with hflag | ⟨w', t, ht, rfl⟩
      · exact Or.inl hflag
      · refine Or.inr ⟨w', t, ?_, rfl⟩
        have hne : w' ≠ w := by
          rintro rfl
          rw [hw] at ht
          cases ht
        show Function.update s.workers w _ w' = some t
        rw [Function.update_of_ne hne, ht]
    · exact Or.inr ⟨w, _, Function.update_self .., rfl⟩

theorem AssignOk.step (h : AssignOk s) (hok : StateOk s) (w : Fin m.numWorkers) (chunk : Bool) :
    AssignOk (m.step s w chunk) := by
  cases hw : s.workers w with
  | none =>
      rw [step_of_none chunk hw]
      split
      · exact h
      · exact h.assign hw
  | some task =>
      obtain ⟨q, stage⟩ := task
      obtain ⟨hq, hs⟩ := hok.tasks w _ hw
      obtain ⟨-, hgrows, -⟩ := executeTask_ok hok.shared hq w chunk hs
      rw [step_of_some chunk hw]
      rcases executeTask_scanned s.globalState w chunk q stage with
        ⟨rfl, heq⟩ | ⟨stage', hstage, hscan⟩
      · rw [heq]
        exact h.finish hw hs
      · refine h.of_same (executeTask_next ..) hscan hgrows fun w' => ?_
        show (Function.update s.workers w _ w').map _ = _
        rcases eq_or_ne w' w with rfl | hne
        · rw [Function.update_self, hstage, hw]
          rfl
        · rw [Function.update_of_ne hne]

theorem Reachable.assignOk (hr : m.lts.Reachable s) : AssignOk s := by
  refine hr.invariant ?_ ?_
  · rintro _ rfl
    refine ⟨?_, ?_, ?_, ?_, ?_⟩
    · exact fun _ _ h => (nomatch h)
    · exact fun _ _ h => (nomatch h)
    · exact fun _ _ _ _ h => (nomatch h)
    · exact fun _ h => (nomatch h)
    · exact fun _ h => absurd h (Nat.not_lt_zero _)
  · rintro s l _ hr h rfl
    exact h.step (Reachable.ok hr) l.1 l.2

/-- Were none of the last `num_threads` begin boundaries published, more
partitions than workers would be assigned. -/
theorem AssignOk.exists_published (h : AssignOk s) (hok : StateOk s)
    (hthreads : m.numWorkers ≤ m.numThreads) {t : Task m} (hw : s.workers w = some t) :
    ∃ r ≤ t.partitionIdx, t.partitionIdx + 1 ≤ r + m.numThreads ∧
      (s.globalState.partitions r).beginComputed := by
  by_contra hcontra
  have hnone : ∀ r ≤ t.partitionIdx, t.partitionIdx + 1 ≤ r + m.numThreads →
      ¬(s.globalState.partitions r).beginComputed :=
    fun r hr hle hflag => hcontra ⟨r, hr, hle, hflag⟩
  have hq : m.numThreads ≤ t.partitionIdx := by
    by_contra hlt
    exact hnone 0 (Nat.zero_le _) (by omega) ((hok.shared 0).first rfl)
  have hassigned : ∀ j : Fin (m.numThreads + 1), ∃ w' t', s.workers w' = some t' ∧
      t'.partitionIdx = t.partitionIdx - j := by
    intro j
    rcases Nat.eq_zero_or_pos j.1 with hj | hj
    · exact ⟨w, t, hw, by omega⟩
    · have hlt := h.lt_next w t hw
      have hnum := (hok.tasks w t hw).1
      have hle := j.isLt
      rcases h.published (t.partitionIdx - j) (by omega) (by omega) with hflag | hex
      · exact absurd hflag (hnone _ (by omega) (by omega))
      · exact hex
  choose f t' ht' heq using hassigned
  have hinj : Function.Injective f := by
    intro j j' hjj
    have htask := (ht' j).symm.trans (hjj ▸ ht' j')
    have hsub := (heq j).symm.trans ((congrArg Task.partitionIdx (Option.some.inj htask)).trans
      (heq j'))
    have hj := j.isLt
    have hj' := j'.isLt
    exact Fin.ext (by omega)
  have hcard := Fintype.card_le_of_injective f hinj
  rw [Fintype.card_fin, Fintype.card_fin] at hcard
  omega

/-! ## Where a boundary computation starts -/

/-- The begin boundaries a worker with partition `q` starts from are
those of a partition less than `num_threads` before `q`. -/
def Anchored (g : GlobalState m) (q : Nat) : Stage κ m.numRuns → Prop
  | .compute p => ∃ r ≤ p, q + 1 ≤ r + m.numThreads ∧ (g.partitions r).beginComputed
  | .search _ prev _ => ∃ r < prev, q + 1 ≤ r + m.numThreads ∧ (g.partitions r).beginComputed
  | .fetch _ prev _ => q + 1 ≤ prev - 1 + m.numThreads
  | .path _ st => ∃ r, q + 1 ≤ r + m.numThreads ∧ ∀ i, m.cut r i ≤ (st.boundaries i).beginIdx
  | _ => True

theorem Anchored.mono (hgrows : Grows g g') :
    ∀ {stage : Stage κ m.numRuns}, Anchored g q stage → Anchored g' q stage
  | .compute _, ⟨r, hr, hq, hflag⟩ => ⟨r, hr, hq, (hgrows r).beginComputed hflag⟩
  | .search .., ⟨r, hr, hq, hflag⟩ => ⟨r, hr, hq, (hgrows r).beginComputed hflag⟩
  | .fetch .., h => h
  | .path .., h => h
  | .check .., _ => trivial
  | .publish .., _ => trivial
  | .store .., _ => trivial
  | .acquire, _ => trivial
  | .copy, _ => trivial
  | .merge _, _ => trivial
  | .scan .., _ => trivial
  | .destroyScanned, _ => trivial
  | .countScanned _, _ => trivial
  | .readBegin .., _ => trivial
  | .readEnd .., _ => trivial
  | .destroyData .., _ => trivial
  | .finish, _ => trivial

variable {b : Fin m.numRuns → Boundary}

theorem anchored_beginPath {r : Nat} (hq : q + 1 ≤ r + m.numThreads)
    (hb : ∀ i, m.cut r i ≤ (b i).beginIdx) : Anchored g q (m.beginPath p b) := by
  rw [beginPath]
  split
  · trivial
  · exact ⟨r, hq, hb⟩

theorem executeTask_anchored (hok : GlobalOk g) (chunk : Bool) (hs : StageOk g q stage)
    (ha : Anchored g q stage)
    (hpublished : ∃ r ≤ q, q + 1 ≤ r + m.numThreads ∧ (g.partitions r).beginComputed) :
    ∀ stage' ∈ (m.executeTask g w chunk q stage).2,
      Anchored (m.executeTask g w chunk q stage).1 q stage' := by
  have hlocal : ∀ stage', Anchored g q stage' → ∀ s ∈ some stage', Anchored g q s := by
    rintro stage' h _ ⟨⟩
    exact h
  cases stage with
  | compute p =>
      obtain ⟨r, hr, hq, hflag⟩ := ha
      rw [executeTask]
      split
      · rename_i hp
        refine hlocal _ (anchored_beginPath (r := p) (by omega) fun i => ?_)
        exact ((hok p).begin_computed hp i).ge
      · rename_i hp
        have hne : r ≠ p := by
          rintro rfl
          exact hp hflag
        exact hlocal (.search p p _) ⟨r, by omega, hq, hflag⟩
  | search p prev b =>
      obtain ⟨r, hr, hq, hflag⟩ := ha
      rw [executeTask]
      split
      · split
        · exact hlocal (.fetch p prev b) (show q + 1 ≤ prev - 1 + m.numThreads by omega)
        · rename_i hp
          have hne : r ≠ prev - 1 := by
            rintro rfl
            exact hp hflag
          exact hlocal (.search p (prev - 1) b) ⟨r, by omega, hq, hflag⟩
      · refine hlocal _ (anchored_beginPath (r := 0) (by omega) fun i => ?_)
        rw [cut_zero]
        exact Nat.zero_le _
  | fetch p prev b =>
      obtain ⟨_, _, _, hflag⟩ := hs
      refine hlocal _ (anchored_beginPath ha fun i => ?_)
      exact ((hok (prev - 1)).begin_computed hflag i).ge
  | path p st =>
      obtain ⟨_, hp, hinv⟩ := hs
      obtain ⟨r, hq, hb⟩ := ha
      rw [executeTask]
      split
      · exact hlocal (.check p _) trivial
      · rename_i hne
        obtain ⟨st', hstep, _, _, hle⟩ := hinv.step (mul_lt_total hp).le hne
        rw [hstep]
        exact hlocal (.path p st') ⟨r, hq, fun i => (hb i).trans (hle i)⟩
  | acquire =>
      obtain ⟨r, hr, hq, hflag⟩ := hpublished
      rw [executeTask]
      split
      · exact hlocal .copy trivial
      · rename_i hp
        have hne : r ≠ q := by
          rintro rfl
          exact hp hflag
        exact hlocal (.compute (q - 1)) ⟨r, by omega, hq, hflag⟩
  | store p b =>
      rintro _ ⟨⟩
      rw [executeTask]
      split <;> trivial
  | publish p b =>
      rintro _ ⟨⟩
      trivial
  | finish =>
      rintro _ ⟨⟩
  | _ =>
      rw [executeTask]
      repeat' (first | (rintro _ ⟨⟩; trivial) | split)

/-! ## What is destroyed -/

/-- Where the destroyed rows of run `i` end between two destructions. -/
def destroyedEnd (g : GlobalState m) (i : Fin m.numRuns) : Nat :=
  if g.destroyPartitionIdx ≠ 0 then m.cut (g.destroyPartitionIdx + 1) i else 0

structure DestroyOk (g : GlobalState m) : Prop where
  unlocked : g.destroyLock = none → ∀ r ∈ g.destroyed, r.endIdx ≤ destroyedEnd g r.run
  behind : g.destroyPartitionIdx ≠ 0 →
    ∀ p < g.destroyPartitionIdx + m.numThreads, (g.partitions p).scanned
  covered : ∀ r ∈ g.destroyed, ∃ e, (∀ p < e + m.numThreads, (g.partitions p).scanned) ∧
    r.endIdx ≤ m.cut (e + 1) r.run
  apart : g.destroyed.Pairwise fun r r' => r.run = r'.run → r'.endIdx ≤ r.beginIdx

/-- Worker `w` destroys up to partition `e` and has done the runs below `k`. -/
structure Destroying (g : GlobalState m) (w : Fin m.numWorkers) (e k : Nat) : Prop where
  lock : g.destroyLock = some w
  ahead : g.destroyPartitionIdx < e
  scanned : ∀ p < e + m.numThreads, (g.partitions p).scanned
  done : ∀ r ∈ g.destroyed, r.run.val < k → r.endIdx ≤ m.cut (e + 1) r.run
  todo : ∀ r ∈ g.destroyed, k ≤ r.run.val → r.endIdx ≤ destroyedEnd g r.run

def DestroyStage (g : GlobalState m) (w : Fin m.numWorkers) : Stage κ m.numRuns → Prop
  | .countScanned e =>
      g.destroyLock = some w ∧ (∀ p < e, (g.partitions p).scanned) ∧
        ∀ r ∈ g.destroyed, r.endIdx ≤ destroyedEnd g r.run
  | .readBegin e k => Destroying g w e k
  | .readEnd e i beginIdx => Destroying g w e i ∧ beginIdx = destroyedEnd g i
  | .destroyData e i beginIdx endIdx =>
      Destroying g w e i ∧ beginIdx = destroyedEnd g i ∧ endIdx = m.cut (e + 1) i
  | _ => g.destroyLock ≠ some w

/-- `g'` has destroyed what `g` has, under the same lock. -/
structure SameDestroy (g g' : GlobalState m) : Prop where
  lock : g'.destroyLock = g.destroyLock
  index : g'.destroyPartitionIdx = g.destroyPartitionIdx
  destroyed : g'.destroyed = g.destroyed
  grows : Grows g g'

theorem SameDestroy.destroyedEnd_eq (h : SameDestroy g g') (i : Fin m.numRuns) :
    destroyedEnd g' i = destroyedEnd g i := by
  rw [destroyedEnd, destroyedEnd, h.index]

theorem DestroyOk.mono (hd : DestroyOk g) (h : SameDestroy g g') : DestroyOk g' where
  unlocked hlock r hr := by
    rw [h.lock] at hlock
    rw [h.destroyed] at hr
    rw [h.destroyedEnd_eq]
    exact hd.unlocked hlock r hr
  behind hne p hp := by
    rw [h.index] at hne hp
    exact (h.grows p).scanned (hd.behind hne p hp)
  covered r hr := by
    rw [h.destroyed] at hr
    obtain ⟨e, hscan, hle⟩ := hd.covered r hr
    exact ⟨e, fun p hp => (h.grows p).scanned (hscan p hp), hle⟩
  apart := h.destroyed ▸ hd.apart

variable {e : Nat}

theorem Destroying.mono {k : Nat} (hd : Destroying g w e k) (h : SameDestroy g g') :
    Destroying g' w e k where
  lock := h.lock.trans hd.lock
  ahead := h.index.trans_lt hd.ahead
  scanned p hp := (h.grows p).scanned (hd.scanned p hp)
  done r hr := hd.done r (h.destroyed ▸ hr)
  todo r hr hk := by
    rw [h.destroyedEnd_eq]
    exact hd.todo r (h.destroyed ▸ hr) hk

/-- A worker that does not hold the lock does not mind who takes it. -/
theorem DestroyStage.mono (hfree : g.destroyLock ≠ some w → g'.destroyLock ≠ some w)
    (hheld : g.destroyLock = some w → SameDestroy g g') :
    ∀ {stage : Stage κ m.numRuns}, DestroyStage g w stage → DestroyStage g' w stage
  | .countScanned e, ⟨hlock, hscan, hend⟩ => by
      have h := hheld hlock
      refine ⟨h.lock.trans hlock, fun p hp => (h.grows p).scanned (hscan p hp), fun r hr => ?_⟩
      rw [h.destroyedEnd_eq]
      exact hend r (h.destroyed ▸ hr)
  | .readBegin .., hd => Destroying.mono hd (hheld (Destroying.lock hd))
  | .readEnd _ i _, ⟨hd, hb⟩ =>
      ⟨hd.mono (hheld hd.lock), hb.trans ((hheld hd.lock).destroyedEnd_eq i).symm⟩
  | .destroyData _ i _ _, ⟨hd, hb, he⟩ =>
      ⟨hd.mono (hheld hd.lock), hb.trans ((hheld hd.lock).destroyedEnd_eq i).symm, he⟩
  | .compute _, h => hfree h
  | .search .., h => hfree h
  | .fetch .., h => hfree h
  | .path .., h => hfree h
  | .check .., h => hfree h
  | .publish .., h => hfree h
  | .store .., h => hfree h
  | .acquire, h => hfree h
  | .copy, h => hfree h
  | .merge _, h => hfree h
  | .scan .., h => hfree h
  | .destroyScanned, h => hfree h
  | .finish, h => hfree h

/-- What a step of worker `w` keeps, for itself and for the others. -/
structure DestroyStep (g : GlobalState m) (w : Fin m.numWorkers)
    (r : GlobalState m × Option (Stage κ m.numRuns)) : Prop where
  shared : DestroyOk r.1
  next : ∀ stage ∈ r.2, DestroyStage r.1 w stage
  finished : r.2 = none → r.1.destroyLock ≠ some w
  free : ∀ w' ≠ w, g.destroyLock ≠ some w' → r.1.destroyLock ≠ some w'
  held : ∀ w' ≠ w, g.destroyLock = some w' → SameDestroy g r.1

theorem SameDestroy.step {o : Option (Stage κ m.numRuns)} (h : SameDestroy g g')
    (hd : DestroyOk g) (hnext : ∀ stage ∈ o, DestroyStage g w stage)
    (hfinished : o = none → g.destroyLock ≠ some w) : DestroyStep g w (g', o) where
  shared := hd.mono h
  next stage hmem :=
    (hnext stage hmem).mono (fun hne heq => hne (h.lock.symm.trans heq)) fun _ => h
  finished ho heq := hfinished ho (h.lock.symm.trans heq)
  free _ _ hne heq := hne (h.lock.symm.trans heq)
  held _ _ _ := h

theorem SameDestroy.refl (g : GlobalState m) : SameDestroy g g := ⟨rfl, rfl, rfl, Grows.refl g⟩

theorem destroyStep_local {stage' : Stage κ m.numRuns} (hd : DestroyOk g)
    (hnext : DestroyStage g w stage') : DestroyStep g w (g, some stage') := by
  refine (SameDestroy.refl g).step hd ?_ fun h => (nomatch h)
  rintro _ ⟨⟩
  exact hnext

theorem destroyStep_beginPath (hd : DestroyOk g) (hlock : g.destroyLock ≠ some w) :
    DestroyStep g w (g, some (m.beginPath p b)) := by
  refine destroyStep_local hd ?_
  rw [beginPath]
  split <;> exact hlock

theorem destroyStep_release (hlock : g.destroyLock = some w) (hd : DestroyOk g)
    {e : Nat} (hbehind : e ≠ 0 → ∀ p < e + m.numThreads, (g.partitions p).scanned)
    (hend : ∀ r ∈ g.destroyed, r.endIdx ≤
      destroyedEnd { g with destroyPartitionIdx := e, destroyLock := none } r.run) :
    DestroyStep g w
      ({ g with destroyPartitionIdx := e, destroyLock := none }, some Stage.finish) where
  shared := ⟨fun _ => hend, hbehind, hd.covered, hd.apart⟩
  next := by
    rintro _ ⟨⟩
    exact fun h => (nomatch h)
  finished h := (nomatch h)
  free _ _ _ h := (nomatch h)
  held w' hne heq := absurd (Option.some.inj (heq.symm.trans hlock)) hne

theorem Destroying.destroyedEnd_le {k : Nat} (h : Destroying g w e k) (i : Fin m.numRuns) :
    destroyedEnd g i ≤ m.cut (e + 1) i := by
  rw [destroyedEnd]
  split
  · exact cut_mono (Nat.succ_le_succ h.ahead.le)
  · exact Nat.zero_le _

variable {i : Fin m.numRuns}

/-- `DestroyData` on the range from the last destruction to this one. -/
theorem Destroying.destroyData (h : Destroying g w e i) (hd : DestroyOk g) : DestroyStep g w
      ({ g with destroyed := ⟨i, destroyedEnd g i, m.cut (e + 1) i⟩ :: g.destroyed },
        some (Stage.readBegin e (i + 1))) where
  shared := by
    refine ⟨fun hnone => ?_, hd.behind, fun r hr => ?_, List.pairwise_cons.mpr ⟨?_, hd.apart⟩⟩
    · exact absurd (h.lock.symm.trans hnone) (fun h => (nomatch h))
    · rcases List.mem_cons.mp hr with rfl | hr
      · exact ⟨e, h.scanned, le_rfl⟩
      · exact hd.covered r hr
    · rintro r hr rfl
      exact h.todo r hr le_rfl
  next := by
    rintro _ ⟨⟩
    refine ⟨h.lock, h.ahead, h.scanned, fun r hr hk => ?_, fun r hr hk => ?_⟩
    · rcases List.mem_cons.mp hr with rfl | hr
      · exact le_rfl
      · rcases Nat.lt_succ_iff_lt_or_eq.mp hk with hlt | heq
        · exact h.done r hr hlt
        · exact (h.todo r hr heq.ge).trans (h.destroyedEnd_le r.run)
    · rcases List.mem_cons.mp hr with rfl | hr
      · exact absurd hk (Nat.not_succ_le_self _)
      · exact h.todo r hr ((Nat.le_succ _).trans hk)
  finished hnone := (nomatch hnone)
  free _ _ hne := hne
  held w' hne heq := absurd (Option.some.inj (heq.symm.trans h.lock)) hne

theorem executeTask_destroy (hok : GlobalOk g) (hthreads : 0 < m.numThreads) (chunk : Bool)
    (hq : q < m.numPartitions) (hs : StageOk g q stage) (hd : DestroyOk g)
    (hst : DestroyStage g w stage) : DestroyStep g w (m.executeTask g w chunk q stage) := by
  have hgrows := (executeTask_ok hok hq w chunk hs).2.1
  cases stage with
  | compute p =>
      rw [executeTask]
      split
      · exact destroyStep_beginPath hd hst
      · exact destroyStep_local hd hst
  | search p prev b =>
      rw [executeTask]
      split
      · split
        · exact destroyStep_local hd hst
        · exact destroyStep_local hd hst
      · exact destroyStep_beginPath hd hst
  | fetch p prev b => exact destroyStep_beginPath hd hst
  | path p st =>
      rw [executeTask]
      split
      · exact destroyStep_local hd hst
      · split <;> exact destroyStep_local hd hst
  | check p b =>
      rw [executeTask]
      split <;> exact destroyStep_local hd hst
  | publish p b =>
      refine SameDestroy.step ⟨rfl, rfl, rfl, hgrows⟩ hd ?_ fun h => by cases h
      rintro _ ⟨⟩
      exact hst
  | store p b =>
      refine SameDestroy.step ⟨rfl, rfl, rfl, hgrows⟩ hd ?_ fun h => by cases h
      rintro _ ⟨⟩
      split <;> exact hst
  | acquire =>
      rw [executeTask]
      split <;> exact destroyStep_local hd hst
  | copy => exact destroyStep_local hd hst
  | merge b => exact destroyStep_local hd hst
  | scan b keys index =>
      rw [executeTask]
      split <;> exact destroyStep_local hd hst
  | destroyScanned =>
      rw [executeTask]
      split
      · rename_i hlock
        have hscan : ∀ p < g.destroyPartitionIdx, (g.partitions p).scanned := by
          intro p hp
          exact hd.behind (Nat.ne_zero_of_lt hp) p (hp.trans_le (Nat.le_add_right _ _))
        refine ⟨⟨(fun h => by cases h), hd.behind, hd.covered, hd.apart⟩, ?_, ?_, ?_, ?_⟩
        · rintro _ ⟨⟩
          exact ⟨rfl, hscan, hd.unlocked hlock.2⟩
        · exact fun h => by cases h
        · exact fun w' hne _ heq => hne (Option.some.inj heq).symm
        · exact fun w' hne heq => absurd (hlock.2.symm.trans heq) (fun h => by cases h)
      · exact destroyStep_local hd hst
  | countScanned e =>
      obtain ⟨hlock, hscan, hend⟩ := hst
      rw [executeTask]
      split
      · rename_i he
        refine destroyStep_local hd ⟨hlock, fun p hp => ?_, hend⟩
        rcases Nat.lt_succ_iff_lt_or_eq.mp hp with hlt | rfl
        · exact hscan p hlt
        · exact he.2
      · split
        · exact destroyStep_release hlock hd hd.behind hend
        · rename_i hcond
          rw [not_or, not_or] at hcond
          refine destroyStep_local hd ⟨hlock, by omega, fun p hp => hscan p (by omega), ?_, ?_⟩
          · exact fun r _ hk => absurd hk (Nat.not_lt_zero _)
          · exact fun r hr _ => hend r hr
  | readBegin e k =>
      have hstage : Destroying g w e k := hst
      rw [executeTask]
      split
      · refine destroyStep_local hd ⟨hst, ?_⟩
        rw [destroyedEnd]
        split
        · rename_i hne
          exact (hok _).scanned (hd.behind hne _ (Nat.lt_add_of_pos_right hthreads)) _
        · rfl
      · rename_i hk
        refine destroyStep_release hstage.lock hd (fun _ => hstage.scanned) fun r hr => ?_
        rw [destroyedEnd, if_pos (Nat.ne_zero_of_lt hstage.ahead)]
        exact hstage.done r hr (r.run.isLt.trans_le (not_lt.mp hk))
  | readEnd e i beginIdx =>
      obtain ⟨hstage, hbegin⟩ := hst
      refine destroyStep_local hd ⟨hstage, hbegin, ?_⟩
      split
      · exact (hok e).scanned (hstage.scanned e (Nat.lt_add_of_pos_right hthreads)) i
      · rename_i he
        exact (cut_eq_count (by omega)).symm
  | destroyData e i beginIdx endIdx =>
      obtain ⟨hstage, rfl, rfl⟩ := hst
      exact hstage.destroyData hd
  | finish => exact SameDestroy.step ⟨rfl, rfl, rfl, hgrows⟩ hd (fun _ h => by cases h) fun _ => hst

/-! ## Every run -/

structure DestructionOk (s : State m) : Prop where
  shared : DestroyOk s.globalState
  idle : ∀ w, s.workers w = none → s.globalState.destroyLock ≠ some w
  tasks : ∀ w t, s.workers w = some t →
    Anchored s.globalState t.partitionIdx t.stage ∧ DestroyStage s.globalState w t.stage

theorem destructionOk_initial : DestructionOk m.initial where
  shared := by
    refine ⟨fun _ r hr => ?_, fun hne => absurd rfl hne, fun r hr => ?_, List.Pairwise.nil⟩
    · cases hr
    · cases hr
  idle _ _ := fun h => (nomatch h)
  tasks _ _ h := (nomatch h)

theorem DestructionOk.step (h : DestructionOk s) (hok : StateOk s) (hassign : AssignOk s)
    (hthreads : m.numWorkers ≤ m.numThreads) (w : Fin m.numWorkers) (chunk : Bool) :
    DestructionOk (m.step s w chunk) := by
  have hpos : 0 < m.numThreads := w.pos.trans_le hthreads
  cases hw : s.workers w with
  | none =>
      have hassign' := hassign.step hok w chunk
      have hok' := hok.step w chunk
      rw [step_of_none chunk hw] at hassign' hok' ⊢
      split at hassign'
      · rename_i hlast
        rw [if_pos hlast]
        exact h
      · rename_i hnext
        rw [if_neg hnext] at hok' ⊢
        have hsame : SameDestroy s.globalState
            { s.globalState with nextPartitionIdx := s.globalState.nextPartitionIdx + 1 } :=
          ⟨rfl, rfl, rfl, Grows.refl _⟩
        refine ⟨h.shared.mono hsame, ?_, ?_⟩
        · intro w' hw'
          rcases eq_or_ne w' w with rfl | hne
          · exact h.idle w' hw
          · exact h.idle w' ((Function.update_of_ne hne _ s.workers).symm.trans hw')
        · intro w' t ht
          rcases eq_or_ne w' w with rfl | hne
          · have hpublished := hassign'.exists_published hok' hthreads ht
            obtain rfl := Option.some.inj ((Function.update_self w' _ s.workers).symm.trans ht)
            exact ⟨hpublished, h.idle w' hw⟩
          · have ht' := (Function.update_of_ne hne _ s.workers).symm.trans ht
            obtain ⟨ha, hst⟩ := h.tasks w' t ht'
            exact ⟨ha.mono hsame.grows,
              hst.mono (fun hne heq => hne (hsame.lock.symm.trans heq)) fun _ => hsame⟩
  | some task =>
      obtain ⟨q, stage⟩ := task
      obtain ⟨hq, hs⟩ := hok.tasks w _ hw
      obtain ⟨ha, hst⟩ := h.tasks w _ hw
      have hgrows := (executeTask_ok hok.shared hq w chunk hs).2.1
      have hdestroy := executeTask_destroy hok.shared hpos chunk hq hs h.shared hst
      have hanchored := executeTask_anchored (w := w) hok.shared chunk hs ha
        (hassign.exists_published hok hthreads hw)
      rw [step_of_some chunk hw]
      refine ⟨hdestroy.shared, ?_, ?_⟩
      · intro w' hw'
        rcases eq_or_ne w' w with rfl | hne
        · have hnone := (Function.update_self w' _ s.workers).symm.trans hw'
          exact hdestroy.finished (Option.map_eq_none_iff.mp hnone)
        · exact hdestroy.free w' hne
            (h.idle w' ((Function.update_of_ne hne _ s.workers).symm.trans hw'))
      · intro w' t ht
        rcases eq_or_ne w' w with rfl | hne
        · have ht' := (Function.update_self w' _ s.workers).symm.trans ht
          obtain ⟨stage', hmem, rfl⟩ := Option.map_eq_some_iff.mp ht'
          exact ⟨hanchored stage' hmem, hdestroy.next stage' hmem⟩
        · have ht' := (Function.update_of_ne hne _ s.workers).symm.trans ht
          obtain ⟨ha', hst'⟩ := h.tasks w' t ht'
          exact ⟨ha'.mono hgrows, hst'.mono (hdestroy.free w' hne) (hdestroy.held w' hne)⟩

theorem Reachable.destructionOk (hthreads : m.numWorkers ≤ m.numThreads)
    (hr : m.lts.Reachable s) : DestructionOk s := by
  refine hr.invariant ?_ ?_
  · rintro _ rfl
    exact destructionOk_initial
  · rintro s l _ hr h rfl
    exact h.step (Reachable.ok hr) (Reachable.assignOk hr) hthreads l.1 l.2

/-! ## No read of a destroyed row -/

/-- Up to `e + num_threads` everything is scanned, so a partition that
is not lies behind. -/
theorem lt_of_unscanned (hscan : ∀ p < e + m.numThreads, (g.partitions p).scanned)
    (hq : (g.partitions q).scanned = false) : e + m.numThreads ≤ q := by
  by_contra hlt
  have := hscan q (not_le.mp hlt)
  rw [hq] at this
  cases this

/-- A worker reads no key before the begin of a partition less than
`num_threads` before its own. -/
theorem cut_le_of_reads (hpos : 0 < m.numThreads) (hs : StageOk g q stage) (ha : Anchored g q stage)
    {x : Nat} (hx : stage.Reads i x) : ∃ r, q + 1 ≤ r + m.numThreads ∧ m.cut r i ≤ x := by
  cases stage with
  | path p st =>
      obtain ⟨hr, hi, rfl⟩ := hx
      obtain ⟨r, hq, hb⟩ := ha
      exact ⟨r, hq, (hb i).trans (hs.2.2.probe_mem hr hi).1⟩
  | merge b =>
      refine ⟨q, by omega, ?_⟩
      have hb := hs.2 i
      rw [Stage.Reads, hb] at hx
      exact hx.1
  | scan b keys index =>
      refine ⟨q, by omega, ?_⟩
      have hb := hs.2.1 i
      rw [Stage.Reads, hb] at hx
      exact hx.1
  | _ => cases hx

theorem destroyed_le_of_reads (hthreads : m.numWorkers ≤ m.numThreads) (hr : m.lts.Reachable s)
    {t : Task m} (hw : s.workers w = some t) {x : Nat} (hx : t.stage.Reads i x)
    {r : DestroyedRange m.numRuns} (hmem : r ∈ s.globalState.destroyed) (hi : r.run = i) :
    r.endIdx ≤ x := by
  subst hi
  have hd := Reachable.destructionOk hthreads hr
  have hpos : 0 < m.numThreads := w.pos.trans_le hthreads
  obtain ⟨e, hscan, hle⟩ := hd.shared.covered r hmem
  have hq := lt_of_unscanned hscan ((Reachable.assignOk hr).unscanned w t hw)
  obtain ⟨k, hk, hcut⟩ :=
    cut_le_of_reads hpos ((Reachable.ok hr).tasks w t hw).2 (hd.tasks w t hw).1 hx
  calc r.endIdx ≤ m.cut (e + 1) r.run := hle
    _ ≤ m.cut k r.run := cut_mono (by omega)
    _ ≤ x := hcut

/-- The rows up to a cut belong to the partitions up to it. -/
theorem exists_scanned {x : Nat} (hpos : 0 < m.numThreads)
    (hscan : ∀ p < e + m.numThreads, (g.partitions p).scanned) (hx : x < m.cut (e + 1) i) :
    ∃ p, (g.partitions p).scanned ∧ p < m.numPartitions ∧ m.cut p i ≤ x ∧ x < m.cut (p + 1) i := by
  obtain ⟨p, ⟨hp, hle, hlt⟩, -⟩ := existsUnique_partition (hx.trans_le cut_le_count)
  refine ⟨p, hscan p ?_, hp, hle, hlt⟩
  by_contra hge
  exact absurd ((cut_mono (i := i) (show e + 1 ≤ p by omega)).trans hle) (not_le.mpr hx)

/-- With no more workers than threads, in every interleaving: a range
that is about to be destroyed has rows of scanned partitions only, the
ranges of a run are disjoint, and no worker reads a key in a destroyed
range or in a chunk that was freed for it. -/
theorem destroyed_data_unused (hthreads : m.numWorkers ≤ m.numThreads)
    (hr : m.lts.Reachable s) :
    (∀ w q e i beginIdx endIdx,
      s.workers w = some ⟨q, .destroyData e i beginIdx endIdx⟩ →
      ∀ x, beginIdx ≤ x → x < endIdx → ∃ p, (s.globalState.partitions p).scanned ∧
        p < m.numPartitions ∧ bound m.sortedRuns (p * m.partitionSize) i ≤ x ∧
        x < bound m.sortedRuns ((p + 1) * m.partitionSize) i) ∧
    (s.globalState.destroyed.Pairwise fun r r' => r.run = r'.run →
      ∀ x, ¬((r.beginIdx ≤ x ∧ x < r.endIdx) ∧ (r'.beginIdx ≤ x ∧ x < r'.endIdx))) ∧
    ∀ w t, s.workers w = some t → ∀ i x, t.stage.Reads i x →
      ∀ r ∈ s.globalState.destroyed, r.run = i →
        ¬(r.beginIdx ≤ x ∧ x < r.endIdx) ∧ ¬r.freesRow x := by
  have hd := Reachable.destructionOk hthreads hr
  refine ⟨?_, ?_, ?_⟩
  · intro w q e i beginIdx endIdx hw x _ hx
    obtain ⟨hdestroying, -, rfl⟩ := (hd.tasks w _ hw).2
    exact exists_scanned (w.pos.trans_le hthreads) hdestroying.scanned hx
  · refine hd.shared.apart.imp fun hle hrun x hx => ?_
    have := hle hrun
    omega
  · intro w t hw i x hx r hmem hi
    have hle := destroyed_le_of_reads hthreads hr hw hx hmem hi
    refine ⟨fun hin => absurd hin.2 (not_lt.mpr hle), fun hfree => ?_⟩
    exact absurd hfree.2 (not_lt.mpr (Nat.div_le_div_right hle))

/-- One run of sixteen rows in four partitions, merged by one thread. -/
def sixteenRows : SortedRunMerger Nat where
  numRuns := 1
  sortedRuns _ := ⟨16, id, fun _ _ hxy _ => hxy⟩
  partitionSize := 4
  partitionSize_pos := Nat.zero_lt_succ _
  external := true
  isIndexSort := false
  numThreads := 1
  tuplesPerBlock := 1
  numWorkers := 1

def sixteenRowsWorker (i : Fin 1) : Fin sixteenRows.numWorkers := i

theorem reads_of_acquired (h : stage.acquired = some b) {x : Nat}
    (hx : (b i).beginIdx ≤ x ∧ x < (b i).endIdx) : stage.Reads i x := by
  cases stage with
  | merge b' =>
      obtain rfl := Option.some.inj h
      exact hx
  | scan b' keys index =>
      obtain rfl := Option.some.inj h
      exact hx
  | _ => cases h

/-- The last partition is merged after the first two were destroyed. -/
theorem destroyed_data_unused_sixteenRows :
    ∃ s t, sixteenRows.lts.Reachable s ∧ s.workers (sixteenRowsWorker 0) = some t ∧
      t.stage.Reads ⟨0, Nat.zero_lt_one⟩ 12 ∧
      s.globalState.destroyed = [⟨⟨0, Nat.zero_lt_one⟩, 0, 8⟩] ∧
      ∀ r ∈ s.globalState.destroyed, ¬(r.beginIdx ≤ 12 ∧ 12 < r.endIdx) := by
  have hr := sixteenRows.reachable_run (List.replicate 55 (sixteenRowsWorker 0, false))
  have hdestroyed : (sixteenRows.run (List.replicate 55 (sixteenRowsWorker 0,
      false))).globalState.destroyed = [⟨⟨0, Nat.zero_lt_one⟩, 0, 8⟩] := by
    decide +kernel
  have hmerge : (((sixteenRows.run (List.replicate 55 (sixteenRowsWorker 0, false))).workers
      (sixteenRowsWorker 0)).bind fun t => t.stage.acquired.map fun b =>
        b ⟨0, Nat.zero_lt_one⟩) = some ⟨12, 16⟩ := by
    decide +kernel
  obtain ⟨t, ht, hb⟩ := Option.bind_eq_some_iff.mp hmerge
  obtain ⟨b, hb, heq⟩ := Option.map_eq_some_iff.mp hb
  have hreads : t.stage.Reads ⟨0, Nat.zero_lt_one⟩ 12 :=
    reads_of_acquired hb (by rw [heq]; decide)
  refine ⟨_, t, hr, ht, hreads, hdestroyed, fun r hmem => ?_⟩
  exact ((destroyed_data_unused le_rfl hr).2.2 (sixteenRowsWorker 0) t ht _ 12 hreads r hmem
    (Subsingleton.elim (α := Fin 1) _ _)).1

end SortedRunMerger

end MiniDuck
