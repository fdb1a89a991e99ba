import MiniDuck.UpdateRuns

/-!
# Conflicts between updates

Two transactions that stored the same row cannot both commit unless one
had committed before the other began. `AuditRun` records, beside a run of
updates, what each committed transaction saw and which rows its infos had
when it committed. `first_updater_wins` reads the claim off that record:
`ChainInv.seen_of_shared` says that an active transaction sees every
commit it shares a stored row with, and a commit turns this into a fact
about two committed ones (`AuditInv`).

A call that meets a conflict throws before it has touched the chain
(`updateState_eq`). The merge join behind it looks at the first tuple of
an info before it asks whether there is one; `chain_nonempty` says that
there always is.
-/

namespace MiniDuck

variable {α : Type}

namespace UpdateSegment

/-- `Update` with the segment it leaves behind, also where it throws. -/
def updateState [BEq α] (seg : UpdateSegment α) (n : Nat) (base : BaseVector α)
    (view : SnapshotView) (sorted : List (Nat × α)) (update : List (Nat × Option α)) :
    UpdateSegment α × Except String (Option Nat) :=
  match seg.effectiveUpdate base sorted update, seg.root with
  | [], _ => (seg, .ok none)
  | x :: rows, none =>
      let created := seg.createChain n base view (x :: rows)
      (created.1, .ok created.2)
  | x :: rows, some root =>
      let next := (seg.heap root).bind Cell.next
      match checkForConflicts view (x :: rows) (seg.infosFrom next) none with
      | .error e => (seg, .error e)
      | .ok found =>
          let moved := seg.reallocateRootInfoIfNeeded n root (x :: rows).length
          match found with
          | some node => (moved.1.mergeUpdate base (x :: rows) moved.2 node, .ok none)
          | none =>
              let node := moved.1.nextEntry
              let linked := moved.1.insertNode n moved.2 view.transactionId
              (linked.mergeUpdate base (x :: rows) moved.2 node, .ok (some node))

/-- A call that throws leaves the segment as it was. -/
theorem updateState_eq [BEq α] (seg : UpdateSegment α) (n : Nat) (base : BaseVector α)
    (view : SnapshotView) (sorted : List (Nat × α)) (update : List (Nat × Option α)) :
    seg.updateState n base view sorted update =
      match seg.update n base view sorted update with
      | .ok (seg', created) => (seg', .ok created)
      | .error e => (seg, .error e) := by
  rw [updateState, UpdateSegment.update]
  cases seg.effectiveUpdate base sorted update with
  | nil => rfl
  | cons x rows =>
      cases seg.root with
      | none => rfl
      | some root =>
          simp only [updateChain, bind, Except.bind]
          cases checkForConflicts view (x :: rows)
              (seg.infosFrom ((seg.heap root).bind Cell.next)) none with
          | error e => rfl
          | ok found => cases found <;> rfl

theorem checkForConflicts_error {view : SnapshotView} {update : List (Nat × α)} {e : String} :
    {nodes : List (Nat × UpdateInfo α)} → {node : Option Nat} →
    checkForConflicts view update nodes node = .error e → e = "Conflict on update!"
  | [], node, h => by
      cases h
  | (a, info) :: nodes, node, h => by
      rw [checkForConflicts] at h
      split_ifs at h
      · exact checkForConflicts_error h
      · cases h
        rfl
      · exact checkForConflicts_error h

variable {seg : UpdateSegment α}

theorem update_error [BEq α] {n : Nat} {base : BaseVector α} {view : SnapshotView}
    {sorted : List (Nat × α)} {update : List (Nat × Option α)} {e : String}
    (h : seg.update n base view sorted update = .error e) : e = "Conflict on update!" := by
  rw [UpdateSegment.update] at h
  cases heff : seg.effectiveUpdate base sorted update with
  | nil =>
      rw [heff] at h
      cases h
  | cons x rows =>
      cases hroot : seg.root with
      | none =>
          rw [heff, hroot] at h
          cases h
      | some root =>
          rw [heff, hroot] at h
          simp only [updateChain, bind, Except.bind] at h
          cases hcheck : checkForConflicts view (x :: rows)
              (seg.infosFrom ((seg.heap root).bind Cell.next)) none with
          | error e' =>
              rw [hcheck] at h
              cases h
              exact checkForConflicts_error hcheck
          | ok found =>
              rw [hcheck] at h
              cases found <;> cases h

def infos (seg : UpdateSegment α) : List (Nat × UpdateInfo α) :=
  match seg.root with
  | none => []
  | some root => seg.infosFrom ((seg.heap root).bind Cell.next)

def rowsOf (seg : UpdateSegment α) (transactionId : Nat) : List Nat :=
  (seg.infos.filter fun x => x.2.versionNumber = transactionId).flatMap fun x =>
    x.2.tuples.map Prod.fst

theorem Shows.infos_eq {root : UpdateInfo α} {nodes : List (Nat × UpdateInfo α)}
    (h : seg.Shows root nodes) : seg.infos = nodes := by
  rcases h with ⟨r, hr⟩ | ⟨hr, -, rfl⟩
  · rw [infos, hr.root_eq]
    exact hr.infosFrom_next
  · obtain ⟨q, -, hroot⟩ := hr.chain.seg
    rw [infos, hroot]

theorem mem_rowsOf {tid r : Nat} :
    r ∈ seg.rowsOf tid ↔ ∃ x ∈ seg.infos, x.2.versionNumber = tid ∧ x.2.Has r := by
  rw [rowsOf, List.mem_flatMap]
  constructor
  · rintro ⟨x, hx, hr⟩
    obtain ⟨hx, hv⟩ := List.mem_filter.1 hx
    exact ⟨x, hx, of_decide_eq_true hv, lookup_ne_none_iff.2 hr⟩
  · rintro ⟨x, hx, hv, hr⟩
    exact ⟨x, List.mem_filter.2 ⟨hx, decide_eq_true hv⟩, lookup_ne_none_iff.1 hr⟩

end UpdateSegment

/-! ## The record of the commits -/

/-- A committed transaction: the bound of its view, and the rows its infos had. -/
structure CommittedUpdate where
  commitId : Nat
  visibilityBound : Nat
  rows : List Nat
  deriving Repr, DecidableEq

structure AuditRun (α : Type) where
  run : UpdateRun α
  log : List CommittedUpdate

inductive AuditStep [BEq α] (n : Nat) (base : BaseVector α) :
    AuditRun α → UpdateOp α → AuditRun α → Prop
  | commit {s : AuditRun α} {tid : Nat} {t : Updater α} {run : UpdateRun α} :
      s.run.active tid = some t → UpdateStep n base s.run (.commit tid) run →
      AuditStep n base s (.commit tid)
        ⟨run, ⟨s.run.clock, t.view.visibilityBound.value, s.run.segment.rowsOf tid⟩ :: s.log⟩
  | other {s : AuditRun α} {op : UpdateOp α} {run : UpdateRun α} :
      (∀ tid, op ≠ .commit tid) → UpdateStep n base s.run op run →
      AuditStep n base s op ⟨run, s.log⟩

def auditLts [BEq α] (n : Nat) (base : BaseVector α) : Lts (AuditRun α) (UpdateOp α) where
  init s := s.run.Initial ∧ s.log = []
  step := AuditStep n base

/-- An active transaction sees every commit that stored one of its rows. -/
theorem ChainInv.seen_of_shared {n : Nat} {base : BaseVector α} {s : UpdateRun α}
    {root : UpdateInfo α} {nodes : List (Nat × UpdateInfo α)} (hc : ChainInv n base s root nodes) {tid r : Nat}
    {t : Updater α} (ht : s.active tid = some t) (hw : t.writes r ≠ none)
    {c : Commit Nat α} (hcm : c ∈ s.history) (hcr : c.writes r ≠ none) (hrun : s.Ok) :
    c.commitId < t.view.visibilityBound.value := by
  by_contra hle
  obtain ⟨x, hx, hxv, -, hxr⟩ := hc.writer_node ht hw
  obtain ⟨y, hy, hyv, hyr⟩ := hc.linked c hcm r hcr ht (Nat.le_of_not_lt hle)
  have hne : y.2.versionNumber ≠ x.2.versionNumber := by
    have h1 := (hrun.committed c hcm).2
    have h2 := (hrun.ids ht).2.1
    have h3 := maxCommitId_lt
    omega
  have hlt := hc.conflictFree x hx t (hxv ▸ ht) y hy hne r hxr hyr
  omega

section

variable [BEq α] {n : Nat} {base : BaseVector α}

/-- The record against the history of the run. -/
structure AuditInv (n : Nat) (base : BaseVector α) (s : AuditRun α) : Prop where
  run : UpdateInv n base s.run
  logged : ∀ c ∈ s.log, ∃ h ∈ s.run.history, h.commitId = c.commitId ∧
    ∀ r ∈ c.rows, h.writes r ≠ none
  newest : s.log.Pairwise fun d c => c.commitId < d.commitId
  disjoint : s.log.Pairwise fun d c => ∀ r ∈ d.rows, r ∈ c.rows →
    c.commitId < d.visibilityBound

theorem AuditInv.step {s t : AuditRun α} {op : UpdateOp α} (h : AuditInv n base s)
    (hstep : AuditStep n base s op t) : AuditInv n base t := by
  cases hstep with
  | @commit tid u run hu hstep =>
      have hinv := h.run.step hstep
      obtain ⟨root, nodes, hs, hc⟩ := h.run.chain
      cases hstep with
      | @commit _ u' hu' hclock =>
          rw [hu] at hu'
          cases hu'
          have hrows : ∀ r ∈ s.run.segment.rowsOf tid, u.writes r ≠ none := by
            intro r hr
            obtain ⟨x, hx, hv, hxr⟩ := UpdateSegment.mem_rowsOf.1 hr
            rw [hs.infos_eq] at hx
            exact ((hc.node_writes h.run.run hx (hv ▸ hu)).2 r).2 hxr
          refine ⟨hinv, ?_, ?_, ?_⟩
          · intro c hcl
            rcases List.mem_cons.1 hcl with rfl | hcl
            · exact ⟨_, List.mem_cons_self, rfl, hrows⟩
            · obtain ⟨d, hd, hid, hw⟩ := h.logged c hcl
              exact ⟨d, List.mem_cons_of_mem _ hd, hid, hw⟩
          · refine List.pairwise_cons.2 ⟨?_, h.newest⟩
            intro c hcl
            obtain ⟨d, hd, hid, -⟩ := h.logged c hcl
            rw [← hid]
            exact (h.run.run.committed d hd).1
          · refine List.pairwise_cons.2 ⟨?_, h.disjoint⟩
            intro c hcl r hr hrc
            obtain ⟨d, hd, hid, hw⟩ := h.logged c hcl
            rw [← hid]
            exact hc.seen_of_shared hu (hrows r hr) hd (hw r hrc) h.run.run
  | other hne hstep =>
      refine ⟨h.run.step hstep, ?_, h.newest, h.disjoint⟩
      intro c hcl
      obtain ⟨d, hd, hid, hw⟩ := h.logged c hcl
      refine ⟨d, ?_, hid, hw⟩
      cases hstep with
      | commit => exact absurd rfl (hne _)
      | start => exact hd
      | update => exact hd
      | updateThrows => exact hd
      | rollback => exact hd
      | cleanup => exact hd

theorem auditInv_reachable {s : AuditRun α} (h : (auditLts n base).Reachable s) :
    AuditInv n base s := by
  refine h.invariant ?_ fun _ _ _ _ hinv hstep => hinv.step hstep
  rintro s ⟨hrun, hlog⟩
  refine ⟨UpdateInv.initial hrun, ?_, ?_, ?_⟩
  · simp [hlog]
  · simp [hlog]
  · simp [hlog]

/-! ## First updater wins -/

/-- Of two committed transactions whose infos shared a row, one had committed
before the other began. A call of `Update` that throws, throws the conflict,
and every view reads the vector as before. -/
theorem first_updater_wins {s : AuditRun α} (h : (auditLts n base).Reachable s) :
    (∀ c ∈ s.log, ∀ d ∈ s.log, c.commitId ≠ d.commitId → ∀ r ∈ c.rows, r ∈ d.rows →
      c.commitId < d.visibilityBound ∨ d.commitId < c.visibilityBound) ∧
    ∀ view sorted update segment e,
      s.run.segment.updateState n base view sorted update = (segment, .error e) →
      e = "Conflict on update!" ∧
        ∀ reader, segment.fetchUpdates n base reader = s.run.segment.fetchUpdates n base reader := by
  have hinv := auditInv_reachable h
  constructor
  · intro c hc d hd hne r hrc hrd
    let Apart (x y : CommittedUpdate) : Prop := ∀ r ∈ x.rows, r ∈ y.rows →
      x.commitId < y.visibilityBound ∨ y.commitId < x.visibilityBound
    have hsymm : Std.Symm Apart := ⟨fun x y hxy r hy hx => (hxy r hx hy).symm⟩
    have hapart : s.log.Pairwise Apart :=
      hinv.disjoint.imp fun hxy r hx hy => Or.inr (hxy r hx hy)
    have hcd : c ≠ d := fun he => hne (congrArg CommittedUpdate.commitId he)
    exact hapart.forall hc hd hcd r hrc hrd
  · intro view sorted update segment e hcall
    rw [UpdateSegment.updateState_eq] at hcall
    cases hu : s.run.segment.update n base view sorted update with
    | ok res =>
        rw [hu] at hcall
        cases hcall
    | error e' =>
        rw [hu] at hcall
        cases hcall
        exact ⟨UpdateSegment.update_error hu, fun _ => rfl⟩

end

/-! ### Two committed writers of a row -/

/-- One transaction writes row 0 and commits, then another one does. -/
theorem first_updater_wins_two : ∃ s : AuditRun Nat,
    s.log = [⟨5, 4, [0]⟩, ⟨3, 2, [0]⟩] ∧ (3 < 4 ∨ 5 < 2) := by
  have h0 : (auditLts 4 zeroVector).Reachable ⟨UpdateRun.fresh, []⟩ :=
    .init ⟨⟨rfl, fun _ => rfl, fun _ => rfl, rfl, rfl, le_rfl⟩, rfl⟩
  have hstart : ∀ {s : AuditRun Nat}, (auditLts 4 zeroVector).Reachable s →
      s.run.clock < transactionIdStart → _ := fun {s} hs hc =>
    hs.step (AuditStep.other (by simp) (UpdateStep.start hc))
  have h1 := hstart h0 (by decide)
  have h2 := h1.step (AuditStep.other (by simp)
    (writes_one transactionIdStart 0 7 rfl (by decide) rfl))
  have h3 := h2.step (AuditStep.commit rfl
    (@UpdateStep.commit Nat _ _ _ _ transactionIdStart _ rfl (by decide)))
  have h4 := hstart h3 (by decide)
  have h5 := h4.step (AuditStep.other (by simp)
    (writes_one (transactionIdStart + 1) 0 8 rfl (by decide) rfl))
  have h6 := h5.step (AuditStep.commit rfl
    (@UpdateStep.commit Nat _ _ _ _ (transactionIdStart + 1) _ rfl (by decide)))
  obtain ⟨run, hlog⟩ : ∃ run, (auditLts 4 zeroVector).Reachable
      ⟨run, [⟨5, 4, [0]⟩, ⟨3, 2, [0]⟩]⟩ := ⟨_, h6⟩
  refine ⟨⟨run, [⟨5, 4, [0]⟩, ⟨3, 2, [0]⟩]⟩, rfl, ?_⟩
  exact (first_updater_wins hlog).1 ⟨3, 2, [0]⟩ (by simp) ⟨5, 4, [0]⟩ (by simp) (by decide) 0
    (by simp) (by simp)

end MiniDuck
