import MiniDuck.ChunkInfo

/-!
# Interleaved deletes on one vector

Any number of transactions call `ChunkVectorInfo.delete` on the same
vector. A call that returns leaves a `DeleteInfo` in the undo buffer of
its transaction, a call that throws forces the transaction to roll
back. Commit and rollback both go through `commitDelete` over all infos
of the transaction, with the commit id or with `notDeletedId`.

The run records which rows each committed transaction deleted. Along
runs in which every conflict leaves earlier marks of the same
transaction alone (`UndoSafe`), these rows keep their commit id
(`committed_deletes_stay`). The code does not ensure that condition:
`committed_delete_resurrected` is a run in which a committed delete is
undone by the rollback of another transaction.
-/

namespace MiniDuck

inductive DeleterStatus
  | active
  | mustRollback
  | finished
  deriving Repr, DecidableEq

/-- The vector, the undo buffers of the transactions, and the record of the
run: deleted rows with their commit ids, and the largest bound that a
compression has used. -/
structure DeleteRun where
  info : ChunkVectorInfo
  undo : Nat → List DeleteInfo
  status : Nat → DeleterStatus
  clock : Nat
  committed : List (Nat × Nat)
  compressedBelow : Nat

inductive DeleteOp
  | delete (transactionId : Nat) (rows : List Nat)
  | commit (transactionId : Nat)
  | rollback (transactionId : Nat)
  | compress (bound : VisibilityBound)

/-- `CommitDelete` over a list of infos. -/
def commitDeletes (n : Nat) (info : ChunkVectorInfo) (id : Nat) (infos : List DeleteInfo) :
    ChunkVectorInfo :=
  infos.foldl (fun info d => info.commitDelete n id d) info

def rowsOf (infos : List DeleteInfo) : List Nat := infos.flatMap DeleteInfo.getRows

inductive DeleteStep (n : Nat) : DeleteRun → DeleteOp → DeleteRun → Prop
  | delete {s : DeleteRun} {tid : Nat} {rows res : List Nat} {info : ChunkVectorInfo} :
      transactionIdStart ≤ tid → tid < notDeletedId → s.status tid ≠ .finished →
      (∀ r ∈ rows, r < n) → s.info.delete n tid rows = (info, .ok res) →
      DeleteStep n s (.delete tid rows)
        { s with
          info := info
          undo := if res = [] then s.undo
            else Function.update s.undo tid (s.undo tid ++ [pushDelete res]) }
  | deleteThrows {s : DeleteRun} {tid : Nat} {rows : List Nat} {e : String}
      {info : ChunkVectorInfo} :
      transactionIdStart ≤ tid → tid < notDeletedId → s.status tid ≠ .finished →
      (∀ r ∈ rows, r < n) → s.info.delete n tid rows = (info, .error e) →
      DeleteStep n s (.delete tid rows)
        { s with
          info := info
          status := Function.update s.status tid .mustRollback }
  | commit {s : DeleteRun} {tid : Nat} :
      s.status tid = .active → s.clock ≤ maxCommitId →
      DeleteStep n s (.commit tid)
        { s with
          info := commitDeletes n s.info s.clock (s.undo tid)
          status := Function.update s.status tid .finished
          clock := s.clock + 1
          committed := s.committed ++ (rowsOf (s.undo tid)).map fun r => (r, s.clock) }
  | rollback {s : DeleteRun} {tid : Nat} :
      s.status tid ≠ .finished →
      DeleteStep n s (.rollback tid)
        { s with
          info := commitDeletes n s.info notDeletedId (s.undo tid).reverse
          status := Function.update s.status tid .finished }
  | compress {s : DeleteRun} {bound : VisibilityBound} :
      bound.value ≤ transactionIdStart →
      DeleteStep n s (.compress bound)
        { s with
          info := s.info.compressVersionIds n bound
          compressedBelow := max s.compressedBelow bound.value }

/-- Runs begin with a vector whose deletes, if any, are committed. -/
structure DeleteRun.Initial (n : Nat) (s : DeleteRun) : Prop where
  ids : ∀ r < n, s.info.deletedId r = notDeletedId ∨ s.info.deletedId r ≤ maxCommitId
  undo : ∀ tid, s.undo tid = []
  status : ∀ tid, s.status tid = .active
  committed : s.committed = []
  compressedBelow : s.compressedBelow = 0

def deleteLts (n : Nat) : Lts DeleteRun DeleteOp where
  init := DeleteRun.Initial n
  step := DeleteStep n

/-- The step is no delete, or its conflict (if any) takes back no earlier mark. -/
def UndoSafe (s : DeleteRun) : DeleteOp → Prop
  | .delete tid rows => s.info.ConflictUndoSafe tid rows
  | _ => True

instance (s : DeleteRun) : (op : DeleteOp) → Decidable (UndoSafe s op)
  | .delete tid rows => inferInstanceAs (Decidable (s.info.ConflictUndoSafe tid rows))
  | .commit _ => inferInstanceAs (Decidable True)
  | .rollback _ => inferInstanceAs (Decidable True)
  | .compress _ => inferInstanceAs (Decidable True)

/-- The id of a deleted row, as committed or as a compression left it. -/
def SameDelete (compressedBelow commitId id : Nat) : Prop :=
  id = commitId ∨ (commitId < compressedBelow ∧ id < compressedBelow)

structure DeleteInv (n : Nat) (s : DeleteRun) : Prop where
  below : s.compressedBelow ≤ transactionIdStart
  owner : ∀ tid, s.undo tid ≠ [] → transactionIdStart ≤ tid ∧ tid < notDeletedId
  owned : ∀ tid, s.status tid ≠ .finished → ∀ r ∈ rowsOf (s.undo tid),
    r < n ∧ s.info.deletedId r = tid
  kept : ∀ p ∈ s.committed, p.1 < n ∧ p.2 ≤ maxCommitId ∧
    SameDelete s.compressedBelow p.2 (s.info.deletedId p.1)
  once : ∀ p ∈ s.committed, ∀ q ∈ s.committed, p.1 = q.1 → p.2 = q.2

/-! ## Step lemmas -/

theorem commitDeletes_deletedId {n r : Nat} (id : Nat) (hr : r < n) :
    (infos : List DeleteInfo) → (info : ChunkVectorInfo) →
    (commitDeletes n info id infos).deletedId r =
      if r ∈ rowsOf infos then id else info.deletedId r
  | [], info => by simp [commitDeletes, rowsOf]
  | d :: infos, info => by
      have ih := commitDeletes_deletedId id hr infos (info.commitDelete n id d)
      rw [ChunkVectorInfo.commitDelete_deletedId hr] at ih
      simp only [commitDeletes, List.foldl_cons] at ih ⊢
      rw [ih]
      by_cases h1 : r ∈ rowsOf infos <;> by_cases h2 : r ∈ d.getRows <;>
        simp_all [rowsOf]

theorem mem_rowsOf_reverse {infos : List DeleteInfo} {r : Nat} :
    r ∈ rowsOf infos.reverse ↔ r ∈ rowsOf infos := by
  simp [rowsOf]

theorem rowsOf_push (infos : List DeleteInfo) (res : List Nat) :
    rowsOf (infos ++ [pushDelete res]) = rowsOf infos ++ res := by
  simp [rowsOf, pushDelete_getRows]

theorem SameDelete.lt {below c id : Nat} (h : SameDelete below c id)
    (hbelow : below ≤ transactionIdStart) (hc : c ≤ maxCommitId) : id < transactionIdStart := by
  have : maxCommitId < transactionIdStart := by decide
  rcases h with rfl | ⟨-, hlt⟩ <;> omega

theorem transactionIdStart_lt_notDeletedId : transactionIdStart < notDeletedId := by decide

namespace DeleteInv

variable {n : Nat} {s : DeleteRun}

variable {tid : Nat}

theorem owner_of_mem (h : DeleteInv n s) {r : Nat} (hr : r ∈ rowsOf (s.undo tid)) :
    transactionIdStart ≤ tid ∧ tid < notDeletedId := by
  refine h.owner tid fun hnil => ?_
  simp [hnil, rowsOf] at hr

/-- A row with a committed delete is marked by no running transaction. -/
theorem kept_not_owned (h : DeleteInv n s) {p : Nat × Nat} (hp : p ∈ s.committed)
    (hst : s.status tid ≠ .finished) : p.1 ∉ rowsOf (s.undo tid) := by
  intro hr
  obtain ⟨-, hc, hsame⟩ := h.kept p hp
  have hlt := hsame.lt h.below hc
  have howner := h.owner_of_mem hr
  have := (h.owned tid hst p.1 hr).2
  omega

/-- Steps that leave the ids alone, and give undo entries to nobody. -/
theorem frame (h : DeleteInv n s) {info : ChunkVectorInfo} {st : DeleterStatus}
    (hst : s.status tid ≠ .finished) (hids : ∀ r, info.deletedId r = s.info.deletedId r) :
    DeleteInv n { s with info := info, status := Function.update s.status tid st } := by
  refine ⟨h.below, h.owner, fun t ht r hr => ?_, fun p hp => ?_, h.once⟩
  · have ht' : s.status t ≠ .finished := by
      by_cases heq : t = tid
      · exact heq ▸ hst
      · simpa [Function.update_of_ne heq] using ht
    obtain ⟨hlt, hid⟩ := h.owned t ht' r hr
    exact ⟨hlt, (hids r).trans hid⟩
  · obtain ⟨hlt, hc, hsame⟩ := h.kept p hp
    exact ⟨hlt, hc, (hids p.1).symm ▸ hsame⟩

theorem delete (h : DeleteInv n s) {rows res : List Nat} {info : ChunkVectorInfo}
    (hlow : transactionIdStart ≤ tid) (hup : tid < notDeletedId) (hrows : ∀ r ∈ rows, r < n)
    (hd : s.info.delete n tid rows = (info, .ok res)) : DeleteInv n { s with
      info := info
      undo := if res = [] then s.undo
        else Function.update s.undo tid (s.undo tid ++ [pushDelete res]) } := by
  obtain ⟨hfresh, hids⟩ := ChunkVectorInfo.delete_ok hup.ne hd
  have hundo : ∀ t r, r ∈ rowsOf ((if res = [] then s.undo
      else Function.update s.undo tid (s.undo tid ++ [pushDelete res])) t) →
      r ∈ rowsOf (s.undo t) ∨ (t = tid ∧ r ∈ res) := by
    intro t r hr
    split_ifs at hr
    · exact Or.inl hr
    · by_cases heq : t = tid
      · subst heq
        rw [Function.update_self, rowsOf_push] at hr
        exact (List.mem_append.1 hr).imp_right fun hr => ⟨rfl, hr⟩
      · rw [Function.update_of_ne heq] at hr
        exact Or.inl hr
  refine ⟨h.below, fun t ht => ?_, fun t ht r hr => ?_, fun p hp => ?_, h.once⟩
  · by_cases heq : t = tid
    · exact heq ▸ ⟨hlow, hup⟩
    · refine h.owner t ?_
      simp only at ht
      split_ifs at ht
      · exact ht
      · rwa [Function.update_of_ne heq] at ht
  · rcases hundo t r hr with hold | ⟨rfl, hres⟩
    · obtain ⟨hlt, hid⟩ := h.owned t ht r hold
      refine ⟨hlt, ?_⟩
      -- the row is marked, so the call cannot have returned it
      have hnot : r ∉ res := fun hmem => by
        have := (hfresh r hmem).2
        have := h.owner_of_mem hold
        omega
      rw [hids r hlt, if_neg hnot, hid]
    · have hlt := hrows r (hfresh r hres).1
      exact ⟨hlt, by rw [hids r hlt, if_pos hres]⟩
  · obtain ⟨hlt, hc, hsame⟩ := h.kept p hp
    have hnot : p.1 ∉ res := fun hmem => by
      have := (hfresh p.1 hmem).2
      have := hsame.lt h.below hc
      have := transactionIdStart_lt_notDeletedId
      omega
    exact ⟨hlt, hc, by rw [hids p.1 hlt, if_neg hnot]; exact hsame⟩

/-- Ending a transaction: its rows get `id`, all others keep their ids. -/
theorem finish (h : DeleteInv n s) (id clock : Nat) {infos : List DeleteInfo}
    (hst : s.status tid ≠ .finished) (hinfos : ∀ r, r ∈ rowsOf infos ↔ r ∈ rowsOf (s.undo tid)) :
    DeleteInv n { s with
      info := commitDeletes n s.info id infos
      status := Function.update s.status tid .finished
      clock := clock } := by
  refine ⟨h.below, h.owner, fun t ht r hr => ?_, fun p hp => ?_, h.once⟩
  · have hne : t ≠ tid := by
      rintro rfl
      simp at ht
    have ht' : s.status t ≠ .finished := by
      simpa [Function.update_of_ne hne] using ht
    obtain ⟨hlt, hid⟩ := h.owned t ht' r hr
    have hnot : r ∉ rowsOf infos := fun hmem => by
      have := (h.owned tid hst r ((hinfos r).1 hmem)).2
      exact hne (hid.symm.trans this)
    exact ⟨hlt, by rw [commitDeletes_deletedId _ hlt, if_neg hnot, hid]⟩
  · obtain ⟨hlt, hc, hsame⟩ := h.kept p hp
    have hnot : p.1 ∉ rowsOf infos := fun hmem =>
      h.kept_not_owned hp hst ((hinfos _).1 hmem)
    exact ⟨hlt, hc, by rw [commitDeletes_deletedId _ hlt, if_neg hnot]; exact hsame⟩

theorem commit (h : DeleteInv n s) {tid : Nat} (hst : s.status tid ≠ .finished)
    (hclock : s.clock ≤ maxCommitId) :
    DeleteInv n { s with
      info := commitDeletes n s.info s.clock (s.undo tid)
      status := Function.update s.status tid .finished
      clock := s.clock + 1
      committed := s.committed ++ (rowsOf (s.undo tid)).map fun r => (r, s.clock) } := by
  have hfin := h.finish s.clock (s.clock + 1) hst fun r => Iff.rfl
  refine ⟨hfin.below, hfin.owner, hfin.owned, fun p hp => ?_, fun p hp q hq heq => ?_⟩
  · rcases List.mem_append.1 hp with hp | hp
    · exact hfin.kept p hp
    · obtain ⟨r, hr, rfl⟩ := List.mem_map.1 hp
      have hlt := (h.owned tid hst r hr).1
      exact ⟨hlt, hclock, Or.inl (by rw [commitDeletes_deletedId _ hlt, if_pos hr])⟩
  · rcases List.mem_append.1 hp with hp | hp <;> rcases List.mem_append.1 hq with hq | hq
    · exact h.once p hp q hq heq
    · obtain ⟨r, hr, rfl⟩ := List.mem_map.1 hq
      exact absurd (heq ▸ hr) (h.kept_not_owned hp hst)
    · obtain ⟨r, hr, rfl⟩ := List.mem_map.1 hp
      exact absurd (heq ▸ hr) (h.kept_not_owned hq hst)
    · obtain ⟨r, -, rfl⟩ := List.mem_map.1 hp
      obtain ⟨r', -, rfl⟩ := List.mem_map.1 hq
      rfl

theorem compress (h : DeleteInv n s) {bound : VisibilityBound}
    (hbound : bound.value ≤ transactionIdStart) :
    DeleteInv n { s with
      info := s.info.compressVersionIds n bound
      compressedBelow := max s.compressedBelow bound.value } := by
  refine ⟨max_le h.below hbound, h.owner, fun t ht r hr => ?_, fun p hp => ?_, h.once⟩
  · obtain ⟨hlt, hid⟩ := h.owned t ht r hr
    have hkeep := (s.info.compressVersionIds_deletedId bound hlt).2.1
    have := (h.owner_of_mem hr).1
    exact ⟨hlt, (hkeep (by omega)).trans hid⟩
  · obtain ⟨hlt, hc, hsame⟩ := h.kept p hp
    obtain ⟨-, hkeep, hsmall⟩ := s.info.compressVersionIds_deletedId bound hlt
    refine ⟨hlt, hc, ?_⟩
    by_cases hge : bound.value ≤ s.info.deletedId p.1
    · rw [hkeep hge]
      exact hsame.imp_right fun ⟨h1, h2⟩ => ⟨lt_max_of_lt_left h1, lt_max_of_lt_left h2⟩
    · have hne : s.info.deletedId p.1 ≠ notDeletedId := by
        have := hsame.lt h.below hc
        have := transactionIdStart_lt_notDeletedId
        omega
      have hlt' := hsmall (by omega) hne (· < bound.value) (by omega) fun _ _ _ h => h
      refine Or.inr ⟨?_, lt_max_of_lt_right hlt'⟩
      rcases hsame with heq | ⟨h1, -⟩
      · exact lt_max_of_lt_right (by omega)
      · exact lt_max_of_lt_left h1

/-- Every step that takes back no earlier mark keeps the invariant. -/
theorem step (h : DeleteInv n s) {op : DeleteOp} {s' : DeleteRun} (hsafe : UndoSafe s op)
    (hs : DeleteStep n s op s') : DeleteInv n s' := by
  cases hs with
  | delete hlow hup _ hrows hd => exact h.delete hlow hup hrows hd
  | deleteThrows hlow hup hst _ hd =>
      exact h.frame hst ((ChunkVectorInfo.delete_error hup.ne hd).2 hsafe)
  | commit hst hclock => exact h.commit (by simp [hst]) hclock
  | rollback hst => exact h.finish _ _ hst fun r => mem_rowsOf_reverse
  | compress hbound => exact h.compress hbound

end DeleteInv

theorem deleteInv_initial {n : Nat} {s : DeleteRun} (h : s.Initial n) : DeleteInv n s := by
  refine ⟨by simp [h.compressedBelow], fun t ht => absurd (h.undo t) ht, fun t _ r hr => ?_, ?_, ?_⟩
  · simp [h.undo t, rowsOf] at hr
  · simp [h.committed]
  · simp [h.committed]

/-- Committed deletes stay. In every run whose conflicts take back no mark of
an earlier call of the same transaction, each row that a committed transaction
deleted keeps that commit id, up to compression, and no second transaction
commits a delete of it. -/
theorem committed_deletes_stay (n : Nat) (s : DeleteRun)
    (hr : ((deleteLts n).restrict UndoSafe).Reachable s) :
    (∀ p ∈ s.committed, SameDelete s.compressedBelow p.2 (s.info.deletedId p.1)) ∧
    (∀ p ∈ s.committed, ∀ q ∈ s.committed, p.1 = q.1 → p.2 = q.2) := by
  have h : DeleteInv n s := hr.invariant_restrict (fun _ h0 => deleteInv_initial h0)
    fun _ _ _ hsafe hi hs => hi.step hsafe hs
  exact ⟨fun p hp => (h.kept p hp).2.2, h.once⟩

/-- A fresh vector of the default size, with commit ids from 5 on. -/
def freshVector : DeleteRun where
  info := ⟨.constant notDeletedId⟩
  undo _ := []
  status _ := .active
  clock := 5
  committed := []
  compressedBelow := 0

theorem freshVector_initial (n : Nat) : freshVector.Initial n :=
  ⟨fun _ _ => Or.inl rfl, fun _ => rfl, fun _ => rfl, rfl, rfl⟩

theorem DeleteStep.reachable {n : Nat} {s s' : DeleteRun} {op : DeleteOp}
    (h : (deleteLts n).Reachable s) (hs : DeleteStep n s op s') : (deleteLts n).Reachable s' :=
  h.step hs

theorem DeleteStep.reachable_safe {n : Nat} {s s' : DeleteRun} {op : DeleteOp}
    (h : ((deleteLts n).restrict UndoSafe).Reachable s) (hs : DeleteStep n s op s')
    (hsafe : UndoSafe s op) : ((deleteLts n).restrict UndoSafe).Reachable s' :=
  Lts.Reachable.step (l := op) h ⟨hsafe, hs⟩

theorem committed_deletes_stay_one :
    ∃ s, ((deleteLts standardVectorSize).restrict UndoSafe).Reachable s ∧ s.committed = [(7, 5)] ∧
      SameDelete s.compressedBelow 5 (s.info.deletedId 7) := by
  have h0 : ((deleteLts standardVectorSize).restrict UndoSafe).Reachable freshVector :=
    .init (freshVector_initial _)
  have h1 := DeleteStep.reachable_safe h0 (show DeleteStep _ _ (.delete transactionIdStart [7]) _
    from .delete (by decide) (by decide) (by decide) (by decide) rfl) (by decide)
  have h2 := DeleteStep.reachable_safe h1 (show DeleteStep _ _ (.commit transactionIdStart) _
    from .commit rfl (by decide)) trivial
  exact ⟨_, h2, rfl, (committed_deletes_stay _ _ h2).1 (7, 5) (by decide)⟩

/-- The second call of the first transaction meets its own row 0 and then the
conflict on row 2, and takes back the mark on row 0. The other transaction then
deletes row 0 and commits, and the rollback of the first brings the row back. -/
theorem committed_delete_resurrected :
    ∃ s, (deleteLts standardVectorSize).Reachable s ∧ (0, 5) ∈ s.committed ∧
      s.info.deletedId 0 = notDeletedId := by
  have h0 : (deleteLts standardVectorSize).Reachable freshVector :=
    .init (freshVector_initial _)
  have h1 := DeleteStep.reachable h0 (show DeleteStep _ _ (.delete transactionIdStart [0]) _
    from .delete (by decide) (by decide) (by decide) (by decide) rfl)
  have h2 := DeleteStep.reachable h1 (show DeleteStep _ _ (.delete (transactionIdStart + 1) [2]) _
    from .delete (by decide) (by decide) (by decide) (by decide) rfl)
  have h3 := DeleteStep.reachable h2 (show DeleteStep _ _ (.delete transactionIdStart [0, 2]) _
    from .deleteThrows (by decide) (by decide) (by decide) (by decide) rfl)
  have h4 := DeleteStep.reachable h3 (show DeleteStep _ _ (.delete (transactionIdStart + 1) [0]) _
    from .delete (by decide) (by decide) (by decide) (by decide) rfl)
  have h5 := DeleteStep.reachable h4 (show DeleteStep _ _ (.commit (transactionIdStart + 1)) _
    from .commit rfl (by decide))
  have h6 := DeleteStep.reachable h5 (show DeleteStep _ _ (.rollback transactionIdStart) _
    from .rollback (by decide))
  refine ⟨_, h6, by decide, ?_⟩
  rw [commitDeletes_deletedId _ (by decide), if_pos (by decide)]

end MiniDuck
