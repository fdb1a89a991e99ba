import MiniDuck.UpdateRuns

/-!
# The readers of an update column

Beside `FetchUpdates` and `FetchCommitted`, which go over one vector, an
update column has two readers that go over rows: `FetchRows` looks up a
list of rows, one binary search for each row and info, and
`FetchCommittedRange` copies a range of rows, one scan for each vector.
`update_readers_agree` says that they write what the two whole-vector
readers put at the rows' positions.

Whatever way an info is read, a row gets its value in the info or keeps
what it had: `mergeUpdateInfo_apply`, `fetchTuples_apply` and
`mergeUpdateInfoRange_apply` say this of the three loops, and it is here
that the infos have to be sorted.
-/

namespace MiniDuck

variable {α : Type}

/-- The updates of a column: the rows of the column, and the chain of each vector once the
first update has been made. -/
structure UpdateColumn (α : Type) where
  count : Nat
  root : Option (List (UpdateSegment α))

/-! ## The readers of one info -/

/-- The loop of `FindUpdatedTuple` between two positions. -/
def findTupleFrom (tuples : List (Nat × α)) (row left right : Nat) : Option Nat :=
  if left < right then
    let mid := left + (right - left) / 2
    match tuples[mid]? with
    | none => none
    | some x =>
        if x.1 = row then some mid
        else if x.1 < row then findTupleFrom tuples row (mid + 1) right
        else findTupleFrom tuples row left mid
  else none
termination_by right - left

def findUpdatedTuple (tuples : List (Nat × α)) (row : Nat) : Option Nat :=
  findTupleFrom tuples row 0 tuples.length

/-- The callback of `TemplatedFetchRows` (and of `FetchRowsValidity`): the rows are looked up
in the info and written from a position on. -/
def fetchTuples (tuples : List (Nat × α)) : List Nat → Nat → (Nat → α) → Nat → α
  | [], _, result => result
  | row :: rows, pos, result =>
      fetchTuples tuples rows (pos + 1)
        (match (findUpdatedTuple tuples row).bind fun i => tuples[i]? with
          | some x => Function.update result pos x.2
          | none => result)

/-- `MergeUpdateInfoRange` (and `MergeUpdateInfoRangeValidity`). -/
def mergeUpdateInfoRange (first last resultOffset : Nat) :
    List (Nat × α) → (Nat → α) → Nat → α
  | [], result => result
  | (row, v) :: tuples, result =>
      if row < first then mergeUpdateInfoRange first last resultOffset tuples result
      else if last ≤ row then result
      else mergeUpdateInfoRange first last resultOffset tuples
        (Function.update result (resultOffset + row - first) v)

namespace UpdateSegment

/-- `TemplatedFetchRows` on the chain of a vector. -/
def fetchRows (seg : UpdateSegment α) (view : SnapshotView) (rows : List Nat) (pos : Nat)
    (result : Nat → α) : Nat → α :=
  (seg.infosFrom seg.root).foldl (fun res x =>
    if x.2.appliesToTransaction view then fetchTuples x.2.tuples rows pos res else res) result

/-- `FetchCommitted`: the values of the root. -/
def fetchCommitted (seg : UpdateSegment α) (n : Nat) (bit : Bool) (result : Nat → α) : Nat → α :=
  match seg.root with
  | none => result
  | some root => mergeUpdateInfo n bit (seg.tuplesAt root) result

/-- What `FetchCommittedRange` does for one vector. -/
def fetchCommittedRange (seg : UpdateSegment α) (first last resultOffset : Nat)
    (result : Nat → α) : Nat → α :=
  match seg.root with
  | none => result
  | some root => mergeUpdateInfoRange first last resultOffset (seg.tuplesAt root) result

end UpdateSegment

/-! ## The readers of a column -/

namespace UpdateColumn

/-- `GetUpdateNode`: a vector that has no updates has the empty chain. -/
def getUpdateNode (col : UpdateColumn α) (v : Nat) : UpdateSegment α :=
  match col.root with
  | none => UpdateSegment.empty
  | some info => info.getD v UpdateSegment.empty

/-- The vectors `FetchCommittedRange` goes over, from `v` on. -/
def fetchCommittedFrom (col : UpdateColumn α) (n startRow endRow : Nat) :
    Nat → Nat → (Nat → α) → Nat → α
  | 0, _, result => result
  | k + 1, v, result =>
      let startInVector := if v = startRow / n then startRow - startRow / n * n else 0
      let endInVector := if v = (endRow - 1) / n then endRow - (endRow - 1) / n * n else n
      col.fetchCommittedFrom n startRow endRow k (v + 1)
        ((col.getUpdateNode v).fetchCommittedRange startInVector endInVector
          (v * n + startInVector - startRow) result)

def fetchCommittedRange (col : UpdateColumn α) (n startRow count : Nat) (result : Nat → α) :
    Nat → α :=
  match col.root with
  | none => result
  | some _ =>
      col.fetchCommittedFrom n startRow (startRow + count)
        ((startRow + count - 1) / n + 1 - startRow / n) (startRow / n) result

/-- The inner loop of `FetchRows`: how many of the next rows lie in the same vector. -/
def sameVector (n count vectorIndex : Nat) : List Nat → Except String Nat
  | [] => .ok 0
  | nextOffset :: rows =>
      if count < nextOffset then .error "UpdateSegment::FetchRows out of range"
      else if nextOffset / n ≠ vectorIndex then .ok 0
      else (sameVector n count vectorIndex rows).map (· + 1)

/-- The outer loop of `FetchRows`, from the row at `idx` on. -/
def fetchRowsFrom (col : UpdateColumn α) (n : Nat) (view : SnapshotView) (resultOffset : Nat) :
    Nat → List Nat → (Nat → α) → Except String (Nat → α)
  | _, [], result => .ok result
  | idx, offset :: rows, result =>
      if col.count < offset then .error "UpdateSegment::FetchRows out of range"
      else
        match sameVector n col.count (offset / n) rows with
        | .error e => .error e
        | .ok more =>
            let vectorRows := ((offset :: rows).take (1 + more)).map (· - offset / n * n)
            col.fetchRowsFrom n view resultOffset (idx + (1 + more)) (rows.drop more)
              ((col.getUpdateNode (offset / n)).fetchRows view vectorRows (resultOffset + idx)
                result)
termination_by _ rows => rows.length
decreasing_by
  simp only [List.length_drop, List.length_cons]
  omega

/-- `FetchRows`, for the offsets that the selection vector picks. -/
def fetchRows (col : UpdateColumn α) (n : Nat) (view : SnapshotView) (rows : List Nat)
    (result : Nat → α) (resultOffset : Nat) : Except String (Nat → α) :=
  if rows.isEmpty || col.root.isNone then .ok result
  else col.fetchRowsFrom n view resultOffset 0 rows result

end UpdateColumn

/-! ## What the readers of one info compute -/

variable {tuples : List (Nat × α)}

theorem findTupleFrom_sound {row left right i : Nat}
    (h : findTupleFrom tuples row left right = some i) : ∃ x, tuples[i]? = some x ∧ x.1 = row := by
  fun_induction findTupleFrom tuples row left right with
  | case1 left right hlt mid hnone => cases h
  | case2 left right hlt mid x hx heq =>
      rw [← Option.some.inj h]
      exact ⟨x, hx, heq⟩
  | case3 left right hlt mid x hx hne hless ih => exact ih h
  | case4 left right hlt mid x hx hne hless ih => exact ih h
  | case5 left right hle => cases h

theorem SortedKeys.lt_of_getElem? (hs : SortedKeys tuples) {i j : Nat} {x y : Nat × α}
    (hx : tuples[i]? = some x) (hy : tuples[j]? = some y) (hij : i < j) : x.1 < y.1 := by
  obtain ⟨hi, rfl⟩ := List.getElem?_eq_some_iff.mp hx
  obtain ⟨hj, rfl⟩ := List.getElem?_eq_some_iff.mp hy
  exact List.pairwise_iff_getElem.mp hs i j hi hj hij

theorem findTupleFrom_complete (hs : SortedKeys tuples) {k : Nat} {y : Nat × α}
    (hy : tuples[k]? = some y) {left right : Nat} (hleft : left ≤ k) (hright : k < right)
    (hlen : right ≤ tuples.length) : (findTupleFrom tuples y.1 left right).isSome := by
  fun_induction findTupleFrom tuples y.1 left right with
  | case1 left right hlt mid hnone =>
      have hmid : tuples.length ≤ mid := by simpa using hnone
      omega
  | case2 left right hlt mid x hx heq => rfl
  | case3 left right hlt mid x hx hne hless ih =>
      -- a row before the one looked for: it stands to the right of the middle
      have hmid : mid < k := by
        refine Nat.lt_of_not_le fun hle => ?_
        rcases Nat.lt_or_eq_of_le hle with hlt' | heq
        · exact absurd (hs.lt_of_getElem? hy hx hlt') (Nat.not_lt.mpr hless.le)
        · rw [heq, hx] at hy
          cases hy
          exact hne rfl
      exact ih hmid hright hlen
  | case4 left right hlt mid x hx hne hless ih =>
      have hmid : k < mid := by
        refine Nat.lt_of_not_le fun hle => ?_
        rcases Nat.lt_or_eq_of_le hle with hlt' | heq
        · exact hless (hs.lt_of_getElem? hx hy hlt')
        · rw [← heq, hx] at hy
          cases hy
          exact hne rfl
      exact ih hleft hmid (by omega)
  | case5 left right hle => omega

/-- The binary search of a sorted info reads it as a map. -/
theorem findUpdatedTuple_value (hs : SortedKeys tuples) (row : Nat) :
    ((findUpdatedTuple tuples row).bind fun i => tuples[i]?).map Prod.snd =
      tuples.lookup row := by
  cases hf : findUpdatedTuple tuples row with
  | some i =>
      obtain ⟨x, hx, rfl⟩ := findTupleFrom_sound hf
      rw [Option.bind_some, hx, lookup_eq_some hs (List.mem_of_getElem? hx)]
      rfl
  | none =>
      refine (lookup_eq_none fun x hx hrow => ?_).symm
      obtain ⟨k, hk, hkx⟩ := List.mem_iff_getElem.mp hx
      have hk' : tuples[k]? = some x := List.getElem?_eq_some_iff.mpr ⟨hk, hkx⟩
      have hfound := findTupleFrom_complete hs hk' (Nat.zero_le k) hk le_rfl
      rw [hrow] at hfound
      rw [findUpdatedTuple] at hf
      rw [hf] at hfound
      cases hfound

/-- Every position gets the value of its row, or keeps what it had. -/
theorem fetchTuples_apply (hs : SortedKeys tuples) :
    (rows : List Nat) → (pos : Nat) → (result : Nat → α) →
    (∀ i r, rows[i]? = some r →
      fetchTuples tuples rows pos result (pos + i) =
        (tuples.lookup r).getD (result (pos + i))) ∧
    ∀ j, j < pos ∨ pos + rows.length ≤ j → fetchTuples tuples rows pos result j = result j
  | [], pos, result => ⟨fun i r h => by simp at h, fun j _ => rfl⟩
  | row :: rows, pos, result => by
      have hvalue := findUpdatedTuple_value hs row
      rw [fetchTuples]
      generalize hres : (match (findUpdatedTuple tuples row).bind fun i => tuples[i]? with
          | some x => Function.update result pos x.2
          | none => result) = written
      have hwritten : ∀ j, written j = if j = pos then (tuples.lookup row).getD (result pos)
          else result j := by
        intro j
        rw [← hres, ← hvalue]
        cases (findUpdatedTuple tuples row).bind fun i => tuples[i]? with
        | none =>
            by_cases hj : j = pos
            · simp [hj]
            · simp [hj]
        | some x => simp [Function.update_apply]
      obtain ⟨hin, hout⟩ := fetchTuples_apply hs rows (pos + 1) written
      refine ⟨fun i r hr => ?_, fun j hj => ?_⟩
      · cases i with
        | zero =>
            have hrow : row = r := by simpa using hr
            rw [hout (pos + 0) (by omega), hwritten, if_pos (Nat.add_zero pos), hrow]
            rfl
        | succ i =>
            have hi := hin i r (by simpa using hr)
            rw [show pos + 1 + i = pos + (i + 1) by omega] at hi
            rw [hi, hwritten, if_neg (by omega)]
      · rw [List.length_cons] at hj
        rw [hout j (by omega), hwritten, if_neg (by omega)]

/-- A position of the range gets the value of its row, or keeps what it had. -/
theorem mergeUpdateInfoRange_apply {first last resultOffset : Nat} :
    {tuples : List (Nat × α)} → SortedKeys tuples → (result : Nat → α) → (j : Nat) →
    mergeUpdateInfoRange first last resultOffset tuples result j =
      if resultOffset ≤ j ∧ first + (j - resultOffset) < last then
        (tuples.lookup (first + (j - resultOffset))).getD (result j)
      else result j
  | [], _, result, j => by simp [mergeUpdateInfoRange]
  | (row, v) :: tuples, hs, result, j => by
      rw [sortedKeys_cons] at hs
      rw [mergeUpdateInfoRange, lookup_cons_ite]
      by_cases hfirst : row < first
      · rw [if_pos hfirst, mergeUpdateInfoRange_apply hs.2,
          if_neg (show first + (j - resultOffset) ≠ row by omega)]
      · rw [if_neg hfirst]
        by_cases hlast : last ≤ row
        · -- the rows that follow are larger still
          rw [if_pos hlast]
          split
          · next hj =>
              have hnone : tuples.lookup (first + (j - resultOffset)) = none :=
                lookup_eq_none fun x hx => by
                  have := hs.1 x hx
                  omega
              rw [if_neg (by omega), hnone]
              rfl
          · rfl
        · rw [if_neg hlast, mergeUpdateInfoRange_apply hs.2]
          by_cases hj : resultOffset ≤ j ∧ first + (j - resultOffset) < last
          · rw [if_pos hj, if_pos hj]
            by_cases hrow : first + (j - resultOffset) = row
            · have hnone : tuples.lookup (first + (j - resultOffset)) = none :=
                lookup_eq_none fun x hx => by
                  have := hs.1 x hx
                  omega
              rw [if_pos hrow, hnone, Option.getD_none, Option.getD_some,
                show resultOffset + row - first = j by omega, Function.update_self]
            · rw [if_neg hrow, Function.update_of_ne (by omega)]
          · rw [if_neg hj, if_neg hj, Function.update_of_ne (by omega)]

/-! ## The readers of one vector -/

namespace UpdateSegment

/-- The pointers of the segment stand for a chain of sorted infos. -/
def WellFormed (seg : UpdateSegment α) (n : Nat) : Prop :=
  ∃ l, seg.Represents l ∧ ∀ x ∈ l, x.2.Ok n

def committedValue (seg : UpdateSegment α) (r : Nat) : Option α :=
  seg.root.bind fun root => (seg.tuplesAt root).lookup r

variable {seg : UpdateSegment α} {n : Nat}

theorem WellFormed.infos_ok (h : seg.WellFormed n) : ∀ x ∈ seg.infosFrom seg.root, x.2.Ok n := by
  obtain ⟨l, hl, hok⟩ := h
  rw [hl.infosFrom_root]
  exact hok

theorem WellFormed.root_ok {root : Nat} (h : seg.WellFormed n) (hroot : seg.root = some root) :
    ∃ info : UpdateInfo α, seg.tuplesAt root = info.tuples ∧
      info.Ok n := by
  obtain ⟨l, hl, hok⟩ := h
  cases l with
  | nil =>
      obtain ⟨q, -, hnone⟩ := hl.chain.seg
      rw [hnone] at hroot
      cases hroot
  | cons x l =>
      obtain ⟨a, info⟩ := x
      rw [hl.root_eq] at hroot
      cases hroot
      exact ⟨info, hl.tuplesAt List.mem_cons_self, hok (root, info) List.mem_cons_self⟩

theorem infosFrom_none (seg : UpdateSegment α) : seg.infosFrom none = [] := by
  rw [infosFrom]
  cases seg.nextEntry <;> rfl

theorem fetchUpdates_eq (seg : UpdateSegment α) (n : Nat) (base : BaseVector α)
    (view : SnapshotView) :
    seg.fetchUpdates n base view =
      updatesForTransaction n base.bit view (seg.infosFrom seg.root) base.data := by
  rw [fetchUpdates]
  split
  · next hroot =>
      rw [hroot, infosFrom_none]
      rfl
  · next root hroot => rw [hroot]

/-- The row reader and the vector reader go down the chain side by side. -/
theorem fetchRows_go (bit : Bool) {view : SnapshotView} (rows : List Nat) (pos : Nat) :
    {infos : List (Nat × UpdateInfo α)} → (∀ x ∈ infos, x.2.Ok n) → (result full : Nat → α) →
    (∀ i r, rows[i]? = some r → result (pos + i) = full r) →
    (∀ i r, rows[i]? = some r →
      infos.foldl (fun res x =>
        if x.2.appliesToTransaction view then fetchTuples x.2.tuples rows pos res else res)
        result (pos + i) = updatesForTransaction n bit view infos full r) ∧
    ∀ j, j < pos ∨ pos + rows.length ≤ j →
      infos.foldl (fun res x =>
        if x.2.appliesToTransaction view then fetchTuples x.2.tuples rows pos res else res)
        result j = result j
  | [], _, result, full, hfull => ⟨hfull, fun _ _ => rfl⟩
  | x :: infos, hok, result, full, hfull => by
      have hx := hok x (by simp)
      have hrest : ∀ y ∈ infos, y.2.Ok n := fun y hy => hok y (by simp [hy])
      rw [updatesForTransaction_cons, List.foldl_cons]
      by_cases happ : x.2.appliesToTransaction view
      · rw [if_pos happ, if_pos happ]
        obtain ⟨hin, hout⟩ := fetchTuples_apply hx.sorted rows pos result
        obtain ⟨h1, h2⟩ := fetchRows_go bit rows pos hrest
          (fetchTuples x.2.tuples rows pos result) (mergeUpdateInfo n bit x.2.tuples full)
          (fun i r hr => by
            rw [hin i r hr, mergeUpdateInfo_apply hx, hfull i r hr])
        exact ⟨h1, fun j hj => (h2 j hj).trans (hout j hj)⟩
      · rw [if_neg happ, if_neg happ]
        exact fetchRows_go bit rows pos hrest result full hfull

theorem WellFormed.fetchRows (h : seg.WellFormed n) (base : BaseVector α) (view : SnapshotView)
    (rows : List Nat) (pos : Nat) (result : Nat → α)
    (hbase : ∀ i r, rows[i]? = some r → result (pos + i) = base.data r) :
    (∀ i r, rows[i]? = some r →
      seg.fetchRows view rows pos result (pos + i) = seg.fetchUpdates n base view r) ∧
    ∀ j, j < pos ∨ pos + rows.length ≤ j → seg.fetchRows view rows pos result j = result j := by
  rw [fetchUpdates_eq]
  exact fetchRows_go base.bit rows pos h.infos_ok result base.data hbase

theorem WellFormed.fetchCommitted_apply (h : seg.WellFormed n) (bit : Bool) (result : Nat → α)
    (r : Nat) : seg.fetchCommitted n bit result r = (seg.committedValue r).getD (result r) := by
  rw [fetchCommitted, committedValue]
  cases hroot : seg.root with
  | none => rfl
  | some root =>
      obtain ⟨info, htuples, hok⟩ := h.root_ok hroot
      simp only [Option.bind_some, htuples]
      exact mergeUpdateInfo_apply hok bit result r

theorem WellFormed.fetchCommittedRange_apply (h : seg.WellFormed n) (first last resultOffset : Nat)
    (result : Nat → α) (j : Nat) : seg.fetchCommittedRange first last resultOffset result j =
      if resultOffset ≤ j ∧ first + (j - resultOffset) < last then
        (seg.committedValue (first + (j - resultOffset))).getD (result j)
      else result j := by
  rw [fetchCommittedRange, committedValue]
  cases hroot : seg.root with
  | none => simp
  | some root =>
      obtain ⟨info, htuples, hok⟩ := h.root_ok hroot
      simp only [Option.bind_some, htuples]
      exact mergeUpdateInfoRange_apply hok.sorted result j

end UpdateSegment

/-! ## The readers of a column -/

theorem sub_div_mul (n r : Nat) : r - r / n * n = r % n := by
  have h := Nat.div_add_mod' r n
  omega

namespace UpdateColumn

/-- Every vector of the column has a chain of sorted infos. -/
def WellFormed (col : UpdateColumn α) (n : Nat) : Prop :=
  ∀ v, (col.getUpdateNode v).WellFormed n

variable {n : Nat}

theorem sameVector_spec {count vectorIndex : Nat} : {rows : List Nat} → {more : Nat} →
    sameVector n count vectorIndex rows = .ok more →
    more ≤ rows.length ∧ ∀ i r, i < more → rows[i]? = some r → r / n = vectorIndex
  | [], more, h => by
      cases h
      exact ⟨le_rfl, fun i r hi => absurd hi (Nat.not_lt_zero i)⟩
  | nextOffset :: rows, more, h => by
      rw [sameVector] at h
      split at h
      · cases h
      · split at h
        · cases h
          exact ⟨Nat.zero_le _, fun i r hi => absurd hi (Nat.not_lt_zero i)⟩
        · next hsame =>
            cases hrec : sameVector n count vectorIndex rows with
            | error e =>
                rw [hrec] at h
                cases h
            | ok k =>
                rw [hrec] at h
                cases h
                obtain ⟨hle, hall⟩ := sameVector_spec hrec
                refine ⟨Nat.succ_le_succ hle, fun i r hi hr => ?_⟩
                cases i with
                | zero =>
                    rw [← Option.some.inj hr]
                    exact Decidable.not_not.mp hsame
                | succ i => exact hall i r (Nat.lt_of_succ_lt_succ hi) hr

theorem sameVector_ok (n vectorIndex : Nat) {count : Nat} : {rows : List Nat} →
    (∀ r ∈ rows, r ≤ count) → ∃ more, sameVector n count vectorIndex rows = .ok more
  | [], _ => ⟨0, rfl⟩
  | nextOffset :: rows, h => by
      obtain ⟨more, hmore⟩ := sameVector_ok n vectorIndex
        fun r hr => h r (List.mem_cons_of_mem _ hr)
      rw [sameVector, if_neg (Nat.not_lt.mpr (h nextOffset List.mem_cons_self)), hmore]
      split
      · exact ⟨0, rfl⟩
      · exact ⟨more + 1, rfl⟩

variable {rows : List Nat}

/-- The rows a vector is asked for, as positions in the vector. -/
theorem getElem?_vectorRows {offset more : Nat}
    (hsame : ∀ i r, i < more → rows[i]? = some r → r / n = offset / n) {i x : Nat}
    (hx : (((offset :: rows).take (1 + more)).map (· - offset / n * n))[i]? = some x) :
    i < 1 + more ∧ ∃ r, (offset :: rows)[i]? = some r ∧ r / n = offset / n ∧ x = r % n := by
  rw [List.getElem?_map, Option.map_eq_some_iff] at hx
  obtain ⟨r, hr, rfl⟩ := hx
  rw [List.getElem?_take] at hr
  split at hr
  · next hi =>
      have hdiv : r / n = offset / n := by
        cases i with
        | zero => rw [← Option.some.inj hr]
        | succ i => exact hsame i r (by omega) hr
      refine ⟨hi, r, hr, hdiv, ?_⟩
      rw [← hdiv]
      exact sub_div_mul n r
  · cases hr

variable {col : UpdateColumn α} {view : SnapshotView} {resultOffset : Nat} {result : Nat → α}

theorem fetchRowsFrom_ok {idx : Nat} (h : ∀ r ∈ rows, r ≤ col.count) :
    ∃ out, col.fetchRowsFrom n view resultOffset idx rows result = .ok out := by
  fun_induction col.fetchRowsFrom n view resultOffset idx rows result with
  | case1 idx result => exact ⟨result, rfl⟩
  | case2 idx offset rows result hlt =>
      exact absurd hlt (Nat.not_lt.mpr (h offset List.mem_cons_self))
  | case3 idx offset rows result hle e herror =>
      obtain ⟨more, hmore⟩ := sameVector_ok n (offset / n)
        fun r hr => h r (List.mem_cons_of_mem _ hr)
      rw [hmore] at herror
      cases herror
  | case4 idx offset rows result hle more hmore vectorRows ih =>
      exact ih fun r hr => h r (List.mem_cons_of_mem _ (List.mem_of_mem_drop hr))

/-- Each row that is left gets what the reader of its vector has for it. -/
theorem fetchRowsFrom_spec (hcol : col.WellFormed n) (base : Nat → BaseVector α) {idx : Nat}
    {out : Nat → α}
    (hbase : ∀ i r, rows[i]? = some r → result (resultOffset + idx + i) = (base (r / n)).data (r % n))
    (h : col.fetchRowsFrom n view resultOffset idx rows result = .ok out) :
    (∀ i r, rows[i]? = some r → out (resultOffset + idx + i) =
      (col.getUpdateNode (r / n)).fetchUpdates n (base (r / n)) view (r % n)) ∧
    ∀ j, j < resultOffset + idx ∨ resultOffset + idx + rows.length ≤ j → out j = result j := by
  fun_induction col.fetchRowsFrom n view resultOffset idx rows result with
  | case1 idx result =>
      cases h
      exact ⟨fun i r hr => by simp at hr, fun _ _ => rfl⟩
  | case2 idx offset rows result hlt => cases h
  | case3 idx offset rows result hle e herror => cases h
  | case4 idx offset rows result hle more hmore vectorRows ih =>
      obtain ⟨hlen, hsame⟩ := sameVector_spec hmore
      have hrows : vectorRows.length = 1 + more := by
        simp only [vectorRows, List.length_map, List.length_take, List.length_cons]
        omega
      obtain ⟨hin, hout⟩ := (hcol (offset / n)).fetchRows (base (offset / n)) view
        vectorRows (resultOffset + idx) result
        (fun i x hx => by
          obtain ⟨-, r, hr, hdiv, rfl⟩ := getElem?_vectorRows hsame hx
          rw [← hdiv]
          exact hbase i r hr)
      -- the rows of the other vectors are still as they were
      have hrest : ∀ i r, (rows.drop more)[i]? = some r →
          (col.getUpdateNode (offset / n)).fetchRows view vectorRows (resultOffset + idx) result
            (resultOffset + (idx + (1 + more)) + i) = (base (r / n)).data (r % n) := by
        intro i r hr
        rw [List.getElem?_drop] at hr
        rw [hout _ (by omega), ← hbase (1 + more + i) r
          (by rw [show 1 + more + i = more + i + 1 by omega]; exact hr)]
        congr 1
        omega
      obtain ⟨h1, h2⟩ := ih hrest h
      rw [List.length_drop] at h2
      refine ⟨fun i r hr => ?_, fun j hj => ?_⟩
      · by_cases hi : i < 1 + more
        · have hx : vectorRows[i]? = some (r - offset / n * n) := by
            rw [List.getElem?_map, List.getElem?_take_of_lt hi, hr]
            rfl
          obtain ⟨-, r', hr', hdiv, hmod⟩ := getElem?_vectorRows hsame hx
          have hrr : r = r' := Option.some.inj (hr.symm.trans hr')
          rw [h2 _ (by omega), hin i _ hx, hmod, hrr, hdiv]
        · obtain ⟨k, rfl⟩ : ∃ k, i = more + k + 1 := ⟨i - more - 1, by omega⟩
          have hr' : (rows.drop more)[k]? = some r := by
            rw [List.getElem?_drop]
            exact hr
          rw [← h1 k r hr']
          congr 1
          omega
      · rw [List.length_cons] at hj
        rw [h2 j (by omega), hout j (by omega)]

theorem startInVector_eq {startRow v : Nat} (hn : 0 < n) (hv : startRow / n ≤ v) :
    v * n + (if v = startRow / n then startRow - startRow / n * n else 0) =
      max startRow (v * n) := by
  have hstart := Nat.div_add_mod' startRow n
  have hlt := Nat.mod_lt startRow hn
  split
  · next heq =>
      rw [heq]
      omega
  · next hne =>
      have hmul := Nat.mul_le_mul_right n (show startRow / n + 1 ≤ v by omega)
      rw [Nat.add_mul, Nat.one_mul] at hmul
      omega

theorem endInVector_eq {n endRow v : Nat} (hn : 0 < n) (hrow : 0 < endRow)
    (hv : v ≤ (endRow - 1) / n) :
    v * n + (if v = (endRow - 1) / n then endRow - (endRow - 1) / n * n else n) =
      min endRow (v * n + n) := by
  have hend := Nat.div_add_mod' (endRow - 1) n
  have hlt := Nat.mod_lt (endRow - 1) hn
  split
  · next heq =>
      rw [heq]
      omega
  · next hne =>
      have hmul := Nat.mul_le_mul_right n (show v + 1 ≤ (endRow - 1) / n by omega)
      rw [Nat.add_mul, Nat.one_mul] at hmul
      omega

/-- From the vector `v` on, the positions of its rows and of those of the vectors behind it get
the committed values. -/
theorem fetchCommittedFrom_apply (hcol : col.WellFormed n) (hn : 0 < n) {startRow endRow : Nat}
    (hrows : startRow < endRow) (j : Nat) :
    (k v : Nat) → startRow / n ≤ v → v + k = (endRow - 1) / n + 1 → (result : Nat → α) →
    col.fetchCommittedFrom n startRow endRow k v result j =
      if startRow + j < endRow ∧ v ≤ (startRow + j) / n then
        ((col.getUpdateNode ((startRow + j) / n)).committedValue ((startRow + j) % n)).getD
          (result j)
      else result j
  | 0, v, _, hk, result => by
      rw [fetchCommittedFrom, if_neg]
      rintro ⟨hlt, hle⟩
      have := Nat.div_le_div_right (c := n) (show startRow + j ≤ endRow - 1 by omega)
      omega
  | k + 1, v, hv, hk, result => by
      have hs := startInVector_eq hn hv
      have he := endInVector_eq hn (by omega) (show v ≤ (endRow - 1) / n by omega)
      rw [fetchCommittedFrom, fetchCommittedFrom_apply hcol hn hrows j k (v + 1) (by omega)
        (by omega), (hcol v).fetchCommittedRange_apply]
      generalize (if v = startRow / n then startRow - startRow / n * n else 0) = first at hs ⊢
      generalize (if v = (endRow - 1) / n then endRow - (endRow - 1) / n * n else n) = last
        at he ⊢
      have hdiv := Nat.div_add_mod' (startRow + j) n
      have hmod := Nat.mod_lt (startRow + j) hn
      rcases Nat.lt_trichotomy ((startRow + j) / n) v with hlt | heq | hgt
      · -- the row lies in a vector before `v`
        have hmul := Nat.mul_le_mul_right n (Nat.succ_le_of_lt hlt)
        rw [Nat.succ_mul] at hmul
        rw [if_neg (by omega), if_neg (by omega), if_neg (by omega)]
      · rw [heq] at hdiv ⊢
        rw [if_neg (by omega)]
        by_cases hrow : startRow + j < endRow
        · rw [if_pos (by omega), if_pos ⟨hrow, le_rfl⟩]
          congr 2
          omega
        · rw [if_neg (by omega), if_neg (by omega)]
      · have hmul := Nat.mul_le_mul_right n (Nat.succ_le_of_lt hgt)
        rw [Nat.succ_mul] at hmul
        rw [if_neg (show ¬ (v * n + first - startRow ≤ j ∧
          first + (j - (v * n + first - startRow)) < last) by omega)]
        by_cases hrow : startRow + j < endRow
        · rw [if_pos ⟨hrow, hgt⟩, if_pos ⟨hrow, hgt.le⟩]
        · rw [if_neg (by omega), if_neg (by omega)]

/-- A range of rows gets the committed values, the rest of the result stays. -/
theorem WellFormed.fetchCommittedRange_apply (hcol : col.WellFormed n) (hn : 0 < n) (startRow : Nat)
    {count : Nat} (hcount : 0 < count) (result : Nat → α) (j : Nat) :
    col.fetchCommittedRange n startRow count result j =
      if j < count then
        ((col.getUpdateNode ((startRow + j) / n)).committedValue ((startRow + j) % n)).getD
          (result j)
      else result j := by
  rw [fetchCommittedRange]
  cases hroot : col.root with
  | none =>
      have hempty : ∀ v, (col.getUpdateNode v).committedValue = fun _ => none := by
        intro v
        rw [getUpdateNode, hroot]
        rfl
      simp [hempty]
  | some info =>
      have hle := Nat.div_le_div_right (c := n) (show startRow ≤ startRow + count - 1 by omega)
      have hv := Nat.div_le_div_right (c := n) (Nat.le_add_right startRow j)
      refine (fetchCommittedFrom_apply hcol hn (by omega) j _ _ le_rfl (by omega) result).trans ?_
      by_cases hj : j < count
      · rw [if_pos ⟨by omega, hv⟩, if_pos hj]
      · rw [if_neg (by omega), if_neg hj]

theorem fetchRows_ok (h : ∀ r ∈ rows, r ≤ col.count) :
    ∃ out, col.fetchRows n view rows result resultOffset = .ok out := by
  rw [fetchRows]
  split
  · exact ⟨result, rfl⟩
  · exact fetchRowsFrom_ok h

theorem WellFormed.fetchRows_spec (hcol : col.WellFormed n) (base : Nat → BaseVector α)
    {out : Nat → α}
    (hbase : ∀ i r, rows[i]? = some r → result (resultOffset + i) = (base (r / n)).data (r % n))
    (h : col.fetchRows n view rows result resultOffset = .ok out) :
    (∀ i r, rows[i]? = some r → out (resultOffset + i) =
      (col.getUpdateNode (r / n)).fetchUpdates n (base (r / n)) view (r % n)) ∧
    ∀ j, j < resultOffset ∨ resultOffset + rows.length ≤ j → out j = result j := by
  rw [fetchRows] at h
  split at h
  · next hempty =>
      cases h
      refine ⟨fun i r hr => ?_, fun _ _ => rfl⟩
      rw [Bool.or_eq_true, List.isEmpty_iff, Option.isNone_iff_eq_none] at hempty
      rcases hempty with hrows | hroot
      · simp [hrows] at hr
      · rw [getUpdateNode, hroot, hbase i r hr]
        rfl
  · exact fetchRowsFrom_spec hcol base hbase h

end UpdateColumn

/-! ## The readers agree -/

theorem UpdateInv.wellFormed [BEq α] {n : Nat} {base : BaseVector α} {s : UpdateRun α}
    (h : UpdateInv n base s) : s.segment.WellFormed n := by
  obtain ⟨root, nodes, hshows, hc⟩ := h.chain
  rcases hshows with ⟨r, hr⟩ | ⟨hr, -, -⟩
  · exact ⟨_, hr, hc.allOk r⟩
  · exact ⟨[], hr, fun x hx => absurd hx List.not_mem_nil⟩

/-- For every column whose vectors are each in a reachable state, and every view: `FetchRows`
writes for each row what `FetchUpdates` puts at the row's position over the same base values,
and `FetchCommittedRange` writes the slice of what `FetchCommitted` writes for the vectors.
The rest of the result is as before. -/
theorem update_readers_agree [BEq α] {n : Nat} (hn : 0 < n) {base : Nat → BaseVector α}
    {col : UpdateColumn α}
    (hreach : ∀ v, ∃ s, (updateLts n (base v)).Reachable s ∧ s.segment = col.getUpdateNode v)
    (view : SnapshotView) :
    (∀ (rows : List Nat) resultOffset result,
      (∀ i r, rows[i]? = some r → result (resultOffset + i) = (base (r / n)).data (r % n)) →
      ((∀ r ∈ rows, r ≤ col.count) →
        ∃ out, col.fetchRows n view rows result resultOffset = .ok out) ∧
      ∀ out, col.fetchRows n view rows result resultOffset = .ok out →
        (∀ i r, rows[i]? = some r → out (resultOffset + i) =
          (col.getUpdateNode (r / n)).fetchUpdates n (base (r / n)) view (r % n)) ∧
        ∀ j, j < resultOffset ∨ resultOffset + rows.length ≤ j → out j = result j) ∧
    ∀ startRow count bit result, 0 < count →
      (∀ j < count, result j = (base ((startRow + j) / n)).data ((startRow + j) % n)) →
      ∀ j, col.fetchCommittedRange n startRow count result j =
        if j < count then
          (col.getUpdateNode ((startRow + j) / n)).fetchCommitted n bit
            (base ((startRow + j) / n)).data ((startRow + j) % n)
        else result j := by
  have hcol : col.WellFormed n := by
    intro v
    obtain ⟨s, hs, hseg⟩ := hreach v
    exact hseg ▸ (updateInv_reachable hs).wellFormed
  constructor
  · intro rows resultOffset result hbase
    exact ⟨UpdateColumn.fetchRows_ok, fun out hout => hcol.fetchRows_spec base hbase hout⟩
  · intro startRow count bit result hcount hbase j
    rw [hcol.fetchCommittedRange_apply hn startRow hcount]
    by_cases hj : j < count
    · rw [if_pos hj, if_pos hj, (hcol _).fetchCommitted_apply, hbase j hj]
    · rw [if_neg hj, if_neg hj]

/-- A column of two vectors, the first one with an uncommitted value in row 0. -/
theorem update_readers_agree_two :
    ∃ (col : UpdateColumn Nat) (view : SnapshotView) (out : Nat → Nat),
      col.fetchRows 4 view [5, 0] (fun _ => 0) 2 = .ok out ∧ out 3 = 7 ∧
      col.fetchCommittedRange 4 0 6 (fun _ => 0) 0 =
        (col.getUpdateNode 0).fetchCommitted 4 false (fun _ => 0) 0 := by
  have h1 := UpdateStep.reachable UpdateRun.fresh_reachable (.start (by decide))
  have h2 := UpdateStep.reachable h1 (writes_one transactionIdStart 0 7 rfl (by decide) rfl)
  obtain ⟨s, hs, view, hread⟩ : ∃ s, (updateLts 4 zeroVector).Reachable s ∧
      ∃ view, s.segment.fetchUpdates 4 zeroVector view 0 = 7 :=
    ⟨_, h2, ⟨transactionIdStart, ⟨2⟩⟩, rfl⟩
  have hcol : ∀ v, ∃ t, (updateLts 4 zeroVector).Reachable t ∧
      t.segment = (⟨8, some [s.segment]⟩ : UpdateColumn Nat).getUpdateNode v := by
    intro v
    cases v with
    | zero => exact ⟨s, hs, rfl⟩
    | succ v => exact ⟨_, UpdateRun.fresh_reachable, rfl⟩
  obtain ⟨hrows, hrange⟩ := update_readers_agree (by decide) hcol view
  obtain ⟨hok, hspec⟩ := hrows [5, 0] 2 (fun _ => 0) fun _ _ _ => rfl
  obtain ⟨out, hout⟩ := hok (by simp)
  refine ⟨_, view, out, hout, ?_, hrange 0 6 false (fun _ => 0) (by decide) (fun _ _ => rfl) 0⟩
  exact ((hspec out hout).1 1 0 rfl).trans hread

end MiniDuck
