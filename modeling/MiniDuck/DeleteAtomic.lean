import MiniDuck.ChunkInfo

/-!
# One call of Delete

`DeleteAtomic` is what a caller of `ChunkVectorInfo::Delete` relies on: a
call that throws has changed no mark, and a call that returns has marked
exactly the fresh rows of its list, which it leaves at the front of the
caller's array in the order of their first occurrence.

The order is a second invariant of the loop (`LoopOrder`) beside
`LoopInv`; with `delete_ok` and `delete_error` it gives
`delete_atomic_iff`: a call keeps the promise exactly if its undo loop
takes back no mark of an earlier call (`ConflictUndoSafe`).
-/

namespace MiniDuck

namespace ChunkVectorInfo

/-! ## The promise -/

/-- The rows of the list that no transaction has marked, without repeats,
in the order of their first occurrence. -/
def freshRows (info : ChunkVectorInfo) (rows : List Nat) : List Nat :=
  (rows.filter fun r => decide (info.deletedId r = notDeletedId)).eraseDups

/-- A call of `Delete` that throws changes no mark; one that returns has
marked the fresh rows of the list, left them at its front, and changed no
other mark. -/
def DeleteAtomic (n tid : Nat) (info : ChunkVectorInfo) (rows : List Nat) : Prop :=
  match info.delete n tid rows with
  | (info', .error _) => ∀ r < n, info'.deletedId r = info.deletedId r
  | (info', .ok res) => res = info.freshRows rows ∧
      ∀ r < n, info'.deletedId r = if r ∈ res then tid else info.deletedId r

variable {info : ChunkVectorInfo}

theorem freshRows_nil_of_marked (h : ∀ r, info.deletedId r ≠ notDeletedId) (rows : List Nat) :
    info.freshRows rows = [] := by
  have hfilter : (rows.filter fun r => decide (info.deletedId r = notDeletedId)) = [] := by
    rw [List.filter_eq_nil_iff]
    intro r _ hr
    exact h r (of_decide_eq_true hr)
  rw [freshRows, hfilter, List.eraseDups_nil]

theorem eraseDups_of_nodup : (l : List Nat) → l.Nodup → l.eraseDups = l
  | [], _ => rfl
  | a :: l, h => by
      have hl := List.nodup_cons.1 h
      have hfilter : (l.filter fun b => !b == a) = l := by
        rw [List.filter_eq_self]
        intro b hb
        have hne : b ≠ a := fun he => hl.1 (he ▸ hb)
        simp [hne]
      rw [List.eraseDups_cons, hfilter, eraseDups_of_nodup l hl.2]

variable {rows : List Nat}

theorem freshRows_of_unmarked (h : ∀ r, info.deletedId r = notDeletedId) (hnd : rows.Nodup) :
    info.freshRows rows = rows := by
  have hfilter : (rows.filter fun r => decide (info.deletedId r = notDeletedId)) = rows := by
    rw [List.filter_eq_self]
    intro r _
    exact decide_eq_true (h r)
  rw [freshRows, hfilter, eraseDups_of_nodup rows hnd]

/-! ## The order of the marked rows -/

/-- One more element at the end of the list comes last, unless it has been
there already. -/
theorem eraseDups_concat (l : List Nat) (a : Nat) :
    (l ++ [a]).eraseDups = if a ∈ l then l.eraseDups else l.eraseDups ++ [a] := by
  rw [List.eraseDups_append]
  by_cases ha : a ∈ l <;> simp [List.removeAll, ha, List.eraseDups_cons]

/-- The rows marked so far are the fresh ones of the rounds so far, in order. -/
def LoopOrder (deleted : Nat → Nat) (rows : List Nat) (i : Nat) (new : List Nat) : Prop :=
  new = ((rows.take i).filter fun r => decide (deleted r = notDeletedId)).eraseDups

theorem take_succ_filter {i : Nat} (hi : i < rows.length) (p : Nat → Bool) :
    (rows.take (i + 1)).filter p =
      (rows.take i).filter p ++ if p (rows.getD i 0) then [rows.getD i 0] else [] := by
  rw [List.take_add_one, List.filter_append, List.getD_eq_getElem?_getD,
    List.getElem?_eq_getElem hi, Option.getD_some, Option.toList_some]
  by_cases hp : p rows[i] <;> simp [hp]

variable {tid : Nat} {deleted : Nat → Nat}

theorem LoopOrder.skip {i : Nat} {new : List Nat} (h : LoopOrder deleted rows i new)
    (hinv : LoopInv tid deleted rows i new) (htid : tid ≠ notDeletedId) (hi : i < rows.length)
    (hown : marked tid deleted new (rows.getD i 0) = tid) : LoopOrder deleted rows (i + 1) new := by
  rw [LoopOrder, take_succ_filter hi]
  by_cases hnew : rows.getD i 0 ∈ new
  · have hfree := hinv.fresh _ hnew
    have hmem : rows.getD i 0 ∈
        (rows.take i).filter fun r => decide (deleted r = notDeletedId) := by
      rw [List.mem_filter]
      exact ⟨((hinv.done _).1 hnew).1, decide_eq_true hfree⟩
    rw [if_pos (decide_eq_true hfree), eraseDups_concat, if_pos hmem]
    exact h
  · rw [marked, if_neg hnew] at hown
    have hmarked : ¬ decide (deleted (rows.getD i 0) = notDeletedId) = true := by
      rw [hown, decide_eq_true_iff]
      exact htid
    rw [if_neg hmarked, List.append_nil]
    exact h

theorem LoopOrder.mark {i : Nat} {new : List Nat} (h : LoopOrder deleted rows i new)
    (hinv : LoopInv tid deleted rows i new) (htid : tid ≠ notDeletedId) (hi : i < rows.length)
    (hnew : rows.getD i 0 ∉ new) (hfree : deleted (rows.getD i 0) = notDeletedId) :
    LoopOrder deleted rows (i + 1) (new ++ [rows.getD i 0]) := by
  have hmem : rows.getD i 0 ∉
      (rows.take i).filter fun r => decide (deleted r = notDeletedId) := by
    intro hm
    refine hnew ((hinv.done _).2 ⟨(List.mem_filter.1 hm).1, ?_⟩)
    rw [hfree]
    exact htid.symm
  rw [LoopOrder, take_succ_filter hi, if_pos (decide_eq_true hfree), eraseDups_concat,
    if_neg hmem, ← h]

/-- A loop that runs to its end leaves the fresh rows in their order. -/
theorem deleteLoop_order (htid : tid ≠ notDeletedId) :
    (k i : Nat) → (new : List Nat) → LoopInv tid deleted rows i new →
    LoopOrder deleted rows i new → i + k = rows.length →
    {deleted' : Nat → Nat} → {res : List Nat} →
    deleteLoop tid (marked tid deleted new) (new ++ rows.drop new.length) i new.length k =
      (deleted', .ok res) → LoopOrder deleted rows rows.length res
  | 0, i, new, _, ho, hlen, deleted', res, h => by
      rw [deleteLoop, List.take_left] at h
      cases h
      rw [← hlen]
      exact ho
  | k + 1, i, new, hinv, ho, hlen, deleted', res, h => by
      have hi : i < rows.length := by omega
      rw [deleteLoop] at h
      simp only [compacted_getD rows hinv.le] at h
      by_cases hown : marked tid deleted new (rows.getD i 0) = tid
      · rw [if_pos hown] at h
        exact deleteLoop_order htid k (i + 1) new (hinv.skip hi hown)
          (ho.skip hinv htid hi hown) (by omega) h
      · have hnew : rows.getD i 0 ∉ new := fun hn => hown (if_pos hn)
        rw [if_neg hown] at h
        by_cases hfree : marked tid deleted new (rows.getD i 0) = notDeletedId
        · have hval : deleted (rows.getD i 0) = notDeletedId := by
            rw [marked, if_neg hnew] at hfree
            exact hfree
          have hinv' := hinv.mark hi htid hnew hval
          have hle := hinv.le
          have hsucc : new.length + 1 = (new ++ [rows.getD i 0]).length := by simp
          rw [if_neg (not_not.2 hfree), marked_update, compacted_set (by omega), hsucc] at h
          exact deleteLoop_order htid k (i + 1) _ hinv' (ho.mark hinv htid hi hnew hval)
            (by omega) h
        · rw [if_pos hfree] at h
          cases h

variable {info' : ChunkVectorInfo}

/-- A call that returns leaves the fresh rows, in order, at the front. -/
theorem delete_ok_order {n : Nat} {res : List Nat} (htid : tid ≠ notDeletedId)
    (h : info.delete n tid rows = (info', .ok res)) : res = info.freshRows rows := by
  rcases delete_cases n tid info rows with ⟨heq, hall⟩ | ⟨heq, -⟩ | ⟨heq, hrange, hall⟩ | heq
  · rw [heq] at h
    cases h
    exact (freshRows_nil_of_marked (fun r => hall r ▸ htid) rows).symm
  · rw [heq] at h
    cases h
  · rw [heq] at h
    cases h
    exact (freshRows_of_unmarked hall (hrange ▸ List.nodup_range)).symm
  · have hstart : marked tid info.deletedId [] = info.deletedId := by
      funext r
      simp [marked]
    rw [heq, deleteMaterialized, getInitializedDeletedPointer_eq] at h
    simp only [Prod.mk.injEq] at h
    have horder : LoopOrder info.deletedId rows 0 [] := rfl
    have hrun := deleteLoop_order htid rows.length 0 []
      (loopInv_start tid info.deletedId rows) horder (Nat.zero_add _)
      (Prod.ext rfl (by simpa [hstart] using h.2))
    rw [LoopOrder, List.take_length] at hrun
    exact hrun

/-! ## Calls that throw -/

/-- A call that throws leaves the rows outside its list alone. -/
theorem delete_error_frame {n : Nat} {e : String} (htid : tid ≠ notDeletedId)
    (h : info.delete n tid rows = (info', .error e)) {r : Nat} (hr : r ∉ rows) :
    info'.deletedId r = info.deletedId r := by
  rcases delete_cases n tid info rows with ⟨heq, -⟩ | ⟨heq, -⟩ | ⟨heq, -, -⟩ | heq
  · rw [heq] at h
    cases h
  · rw [heq] at h
    cases h
    rfl
  · rw [heq] at h
    cases h
  · rw [heq] at h
    rcases deleteMaterialized_spec info rows htid with
      ⟨res, -, hmat⟩ | ⟨j, res, -, hinv, -, -, hmat⟩
    · rw [hmat] at h
      cases h
    · rw [hmat] at h
      cases h
      have hres : r ∉ res := fun hm => hr (List.mem_of_mem_take ((hinv.done r).1 hm).1)
      have hundo : r ∉ (res ++ rows.drop res.length).take j := by
        intro hm
        rcases List.mem_append.1 (List.mem_of_mem_take hm) with hm | hm
        · exact hres hm
        · exact hr (List.mem_of_mem_drop hm)
      show writeIds _ _ _ r = _
      rw [writeIds_apply, if_neg hundo, marked, if_neg hres]

theorem delete_ok_undoSafe {n : Nat} {res : List Nat} (htid : tid ≠ notDeletedId)
    (h : info.delete n tid rows = (info', .ok res)) : info.ConflictUndoSafe tid rows := by
  have hfree : ∀ r ∈ rows, info.deletedId r = tid ∨ info.deletedId r = notDeletedId := by
    rcases delete_cases n tid info rows with ⟨-, hall⟩ | ⟨heq, -⟩ | ⟨-, -, hall⟩ | heq
    · intro r _
      exact Or.inl (hall r)
    · rw [heq] at h
      cases h
    · intro r _
      exact Or.inr (hall r)
    · rcases deleteMaterialized_spec info rows htid with
        ⟨res', hinv, -⟩ | ⟨j, res', -, -, -, -, hmat⟩
      · intro r hr
        rw [← List.take_length (l := rows)] at hr
        exact hinv.conflictFree r hr
      · rw [heq, hmat] at h
        cases h
  have hbefore : info.beforeConflict tid rows = rows := by
    rw [beforeConflict, List.takeWhile_eq_self_iff]
    intro r hr
    rcases hfree r hr with hr | hr <;> simp [heldByOther, hr]
  intro hlt
  rw [hbefore] at hlt
  exact absurd hlt (lt_irrefl _)

/-- A call of `Delete` keeps its promise if and only if its undo loop, should
it run, is safe. -/
theorem delete_atomic_iff (n tid : Nat) (info : ChunkVectorInfo) (rows : List Nat)
    (htid : tid ≠ notDeletedId) (hrows : ∀ r ∈ rows, r < n) :
    info.DeleteAtomic n tid rows ↔ info.ConflictUndoSafe tid rows := by
  rcases hcall : info.delete n tid rows with ⟨info', res⟩
  rw [DeleteAtomic, hcall]
  cases res with
  | error e =>
      rw [← delete_error htid hcall]
      constructor
      · intro hsame r
        by_cases hr : r ∈ rows
        · exact hsame r (hrows r hr)
        · exact delete_error_frame htid hcall hr
      · intro hsame r _
        exact hsame r
  | ok res =>
      have hmarks := (delete_ok htid hcall).2
      have horder := delete_ok_order htid hcall
      refine ⟨fun _ => ?_, fun _ => ⟨horder, hmarks⟩⟩
      exact delete_ok_undoSafe htid hcall

def markedByTwo : ChunkVectorInfo :=
  ⟨.array fun r => if r = 0 then transactionIdStart else
    if r = 2 then transactionIdStart + 1 else notDeletedId⟩

theorem delete_atomic_iff_markedByTwo :
    markedByTwo.DeleteAtomic standardVectorSize transactionIdStart [1, 0, 3, 1] ↔
      markedByTwo.ConflictUndoSafe transactionIdStart [1, 0, 3, 1] :=
  delete_atomic_iff standardVectorSize transactionIdStart markedByTwo [1, 0, 3, 1]
    (by decide) (by decide)

/-- The first transaction's second call runs into row 2 and takes back the
mark of its first call. -/
theorem delete_conflict_unmarks :
    ¬ markedByTwo.DeleteAtomic standardVectorSize transactionIdStart [0, 2] := by
  intro h
  have hsame : ∀ r < standardVectorSize,
      (markedByTwo.delete standardVectorSize transactionIdStart [0, 2]).1.deletedId r =
        markedByTwo.deletedId r := h
  exact absurd (hsame 0 (by decide)) (by decide)

end ChunkVectorInfo
end MiniDuck
