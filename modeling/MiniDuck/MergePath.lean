import MiniDuck.FiniteRank

/-!
# The k-way merge path

`SortedRunMergerLocalState::TemplatedComputePartitionBoundaries` cuts
every sorted run so that the cuts select a given number of rows and
every selected row is at most every other one. It starts from begin
boundaries that are too low and advances one run per iteration.

The rows are ordered by key, run index and position (`element`). The
cuts at `T` rows are then unique: `bound runs T` counts, per run, the
rows of rank below `T` (`lt_bound_iff`, `sum_bound`). `PathInv` says
that the loop is still below these cuts. It is kept by every iteration
(`PathInv.step`) and at the end of the loop it leaves no choice
(`PathInv.boundary_eq`).
-/

namespace MiniDuck

/-- The keys of one run, sorted up to its count. -/
structure SortedRun (κ : Type) [LinearOrder κ] where
  count : Nat
  key : Nat → κ
  sorted : ∀ x y, x ≤ y → y < count → key x ≤ key y

structure Boundary where
  beginIdx : Nat
  endIdx : Nat
deriving DecidableEq, Repr

variable {κ : Type} [LinearOrder κ] {n : Nat}

/-! ## The computation -/

def alignValue (n val : Nat) : Nat := (n + (val - 1)) / val * val

def computeBoundaryDelta (totalRemaining k : Nat) (runBoundary : Boundary) : Nat :=
  min (alignValue totalRemaining k / k) (runBoundary.endIdx - runBoundary.beginIdx)

/-- The variables of the `while` loop. -/
structure PathState (n : Nat) where
  boundaries : Fin n → Boundary
  active : List (Fin n)
  remaining : Nat

namespace PathState

/-- Before the loop: the runs that are not exhausted, and what the begin
boundaries still miss. -/
def start (boundaries : Fin n → Boundary) (target : Nat) : PathState n where
  boundaries := boundaries
  active := (List.finRange n).filter fun i => (boundaries i).beginIdx ≠ (boundaries i).endIdx
  remaining := target - ∑ i, (boundaries i).beginIdx

def delta (st : PathState n) (i : Fin n) : Nat :=
  computeBoundaryDelta st.remaining st.active.length (st.boundaries i)

/-- The position whose key an iteration reads in run `i`. -/
def probe (st : PathState n) (i : Fin n) : Nat :=
  (st.boundaries i).beginIdx + st.delta i - 1

def value (runs : Fin n → SortedRun κ) (st : PathState n) (i : Fin n) : κ :=
  (runs i).key (st.probe i)

/-- The `for` loop over the active runs: the strict comparison keeps the
earliest run among equal keys. -/
def minRun (runs : Fin n → SortedRun κ) (st : PathState n) : Fin n → List (Fin n) → Fin n
  | m, [] => m
  | m, i :: rest =>
      if st.value runs i < st.value runs m then minRun runs st i rest
      else minRun runs st m rest

/-- The end of an iteration: the begin boundary of the picked run moves
by its delta, and an exhausted run is no longer active. -/
def advance (st : PathState n) (minIdx : Fin n) : PathState n :=
  let boundary : Boundary :=
    { st.boundaries minIdx with
      beginIdx := (st.boundaries minIdx).beginIdx + st.delta minIdx }
  { boundaries := Function.update st.boundaries minIdx boundary
    active := if boundary.beginIdx = boundary.endIdx then st.active.erase minIdx else st.active
    remaining := st.remaining - st.delta minIdx }

/-- One iteration, or none where it would read `active_run_idxs[0]` of
an empty vector. -/
def step (runs : Fin n → SortedRun κ) (st : PathState n) : Option (PathState n) :=
  match st.active with
  | [] => none
  | first :: rest => some (st.advance (st.minRun runs first rest))

/-- After the loop the end boundaries are set to the begin boundaries. -/
def result (st : PathState n) : Fin n → Boundary :=
  fun i => ⟨(st.boundaries i).beginIdx, (st.boundaries i).beginIdx⟩

end PathState

/-! ## The canonical cuts -/

/-- A row with all that orders it: key, then run, then position. -/
def element (runs : Fin n → SortedRun κ) (i : Fin n) (x : Nat) : κ ×ₗ (Fin n ×ₗ Nat) :=
  toLex ((runs i).key x, toLex (i, x))

def rows (runs : Fin n → SortedRun κ) : Finset (Σ _ : Fin n, Nat) :=
  Finset.univ.sigma fun i => Finset.range (runs i).count

def elements (runs : Fin n → SortedRun κ) : Finset (κ ×ₗ (Fin n ×ₗ Nat)) :=
  (rows runs).image fun r => element runs r.1 r.2

def totalCount (runs : Fin n → SortedRun κ) : Nat := ∑ i, (runs i).count

/-- The number of rows before row `x` of run `i`. -/
def rank (runs : Fin n → SortedRun κ) (i : Fin n) (x : Nat) : Nat :=
  rankIn (elements runs) (element runs i x)

/-- How many rows of run `i` are among the first `T` rows. -/
def bound (runs : Fin n → SortedRun κ) (T : Nat) (i : Fin n) : Nat :=
  ((Finset.range (runs i).count).filter fun x => rank runs i x < T).card

variable {runs : Fin n → SortedRun κ} {T T' : Nat} {i j : Fin n} {x y : Nat}

theorem element_injective : Function.Injective fun r : Σ _ : Fin n, Nat => element runs r.1 r.2 := by
  rintro ⟨i, x⟩ ⟨j, y⟩ h
  have h2 := congrArg (fun e => ofLex (ofLex e).2) h
  obtain ⟨rfl, rfl⟩ := Prod.mk.injEq .. |>.mp h2
  rfl

theorem mem_rows : (⟨i, x⟩ : Σ _ : Fin n, Nat) ∈ rows runs ↔ x < (runs i).count := by
  simp [rows]

theorem element_mem (hx : x < (runs i).count) : element runs i x ∈ elements runs :=
  Finset.mem_image_of_mem (fun r : Σ _ : Fin n, Nat => element runs r.1 r.2) (mem_rows.mpr hx)

theorem card_elements : (elements runs).card = totalCount runs := by
  rw [elements, Finset.card_image_of_injective _ element_injective, rows, Finset.card_sigma,
    totalCount]
  simp only [Finset.card_range]

theorem element_lt_iff : element runs i x < element runs j y ↔
    (runs i).key x < (runs j).key y ∨
      (runs i).key x = (runs j).key y ∧ (i < j ∨ i = j ∧ x < y) := by
  rw [element, element, Prod.Lex.toLex_lt_toLex, Prod.Lex.toLex_lt_toLex]

theorem rank_lt_iff (hx : x < (runs i).count) :
    rank runs i x < rank runs j y ↔ element runs i x < element runs j y :=
  rankIn_lt_iff (element_mem hx)

theorem rank_lt_total (hx : x < (runs i).count) : rank runs i x < totalCount runs := by
  rw [← card_elements]
  exact rankIn_lt_card (element_mem hx)

theorem rank_le_of_le (hxy : x ≤ y) (hy : y < (runs i).count) : rank runs i x ≤ rank runs i y := by
  rcases hxy.eq_or_lt with rfl | hlt
  · exact le_rfl
  · refine (rank_lt_iff (hxy.trans_lt hy)).mpr (element_lt_iff.mpr ?_) |>.le
    rcases ((runs i).sorted x y hxy hy).eq_or_lt with heq | hkey
    · exact Or.inr ⟨heq, Or.inr ⟨rfl, hlt⟩⟩
    · exact Or.inl hkey

theorem key_le_of_rank_lt (hx : x < (runs i).count) (h : rank runs i x < rank runs j y) :
    (runs i).key x ≤ (runs j).key y := by
  rcases element_lt_iff.mp ((rank_lt_iff hx).mp h) with hlt | ⟨heq, _⟩
  · exact hlt.le
  · exact heq.le

/-- The canonical cut separates the rows of rank below `T` from the rest. -/
theorem lt_bound_iff (hx : x < (runs i).count) : x < bound runs T i ↔ rank runs i x < T :=
  lt_card_filter_range_iff
    (fun _ _ hxy hy hlt => (rank_le_of_le hxy hy).trans_lt hlt) hx

theorem bound_le_count : bound runs T i ≤ (runs i).count := by
  have h := Finset.card_filter_le (Finset.range (runs i).count) fun x => rank runs i x < T
  rwa [Finset.card_range] at h

theorem bound_mono (h : T ≤ T') : bound runs T i ≤ bound runs T' i := by
  refine Finset.card_le_card fun x hx => ?_
  obtain ⟨hmem, hlt⟩ := Finset.mem_filter.mp hx
  exact Finset.mem_filter.mpr ⟨hmem, hlt.trans_le h⟩

theorem bound_zero : bound runs 0 i = 0 := by
  simp [bound]

theorem bound_of_total_le (h : totalCount runs ≤ T) : bound runs T i = (runs i).count := by
  rw [bound, Finset.filter_true_of_mem, Finset.card_range]
  intro x hx
  exact (rank_lt_total (Finset.mem_range.mp hx)).trans_le h

/-- The canonical cuts at `T` select `T` rows, as long as there are so many. -/
theorem sum_bound (runs : Fin n → SortedRun κ) (T : Nat) :
    ∑ i, bound runs T i = min T (totalCount runs) := by
  have hsigma : ∑ i, bound runs T i =
      (Finset.univ.sigma fun i => (Finset.range (runs i).count).filter
        fun x => rank runs i x < T).card := (Finset.card_sigma _ _).symm
  have himage : (elements runs).filter (fun e => rankIn (elements runs) e < T) =
      (Finset.univ.sigma fun i => (Finset.range (runs i).count).filter
        fun x => rank runs i x < T).image fun r => element runs r.1 r.2 := by
    ext e
    constructor
    · intro he
      obtain ⟨hmem, hlt⟩ := Finset.mem_filter.mp he
      obtain ⟨r, hr, rfl⟩ := Finset.mem_image.mp hmem
      have hrow := (Finset.mem_sigma.mp hr).2
      exact Finset.mem_image_of_mem _
        (Finset.mem_sigma.mpr ⟨Finset.mem_univ _, Finset.mem_filter.mpr ⟨hrow, hlt⟩⟩)
    · intro he
      obtain ⟨r, hr, rfl⟩ := Finset.mem_image.mp he
      obtain ⟨hrow, hlt⟩ := Finset.mem_filter.mp (Finset.mem_sigma.mp hr).2
      exact Finset.mem_filter.mpr ⟨element_mem (Finset.mem_range.mp hrow), hlt⟩
  rw [hsigma, ← card_elements, ← card_rankIn_lt, himage,
    Finset.card_image_of_injective _ element_injective]

theorem sum_bound_of_le (h : T ≤ totalCount runs) : ∑ i, bound runs T i = T := by
  rw [sum_bound, min_eq_left h]

theorem bound_le (runs : Fin n → SortedRun κ) (T : Nat) (i : Fin n) : bound runs T i ≤ T := by
  have hle := Finset.single_le_sum (f := bound runs T) (fun j _ => Nat.zero_le _)
    (Finset.mem_univ i)
  rw [sum_bound] at hle
  exact hle.trans (min_le_left _ _)

/-! ## The run an iteration picks -/

variable {st : PathState n}

theorem minRun_mem (runs : Fin n → SortedRun κ) (m : Fin n) (l : List (Fin n)) : st.minRun runs m l ∈ m :: l := by
  induction l generalizing m with
  | nil => exact List.mem_cons_self
  | cons i rest ih =>
      rw [PathState.minRun]
      split
      · exact List.mem_cons_of_mem m (ih i)
      · rcases List.mem_cons.mp (ih m) with heq | hmem
        · rw [heq]
          exact List.mem_cons_self
        · exact List.mem_cons_of_mem m (List.mem_cons_of_mem i hmem)

/-- Of the active runs, in ascending order, the first with the least key. -/
theorem minRun_le (runs : Fin n → SortedRun κ) {m : Fin n} {l : List (Fin n)}
    (hl : (m :: l).Pairwise (· < ·)) :
    ∀ j ∈ m :: l, st.value runs (st.minRun runs m l) < st.value runs j ∨
      st.value runs (st.minRun runs m l) = st.value runs j ∧ st.minRun runs m l ≤ j := by
  induction l generalizing m with
  | nil =>
      intro j hj
      obtain rfl := List.mem_singleton.mp hj
      exact Or.inr ⟨rfl, le_rfl⟩
  | cons i rest ih =>
      obtain ⟨hm, hi⟩ := List.pairwise_cons.mp hl
      have hmi := hm i List.mem_cons_self
      rw [PathState.minRun]
      intro j hj
      split
      · rename_i hlt
        have hmin := ih hi
        rcases List.mem_cons.mp hj with rfl | hj
        · rcases hmin i List.mem_cons_self with h | ⟨h, _⟩
          · exact Or.inl (h.trans hlt)
          · exact Or.inl (h ▸ hlt)
        · exact hmin j hj
      · rename_i hge
        have hmin := ih (List.pairwise_cons.mpr
          ⟨fun j hj => hm j (List.mem_cons_of_mem i hj), (List.pairwise_cons.mp hi).2⟩)
        rcases List.mem_cons.mp hj with rfl | hj
        · exact hmin j List.mem_cons_self
        · rcases List.mem_cons.mp hj with rfl | hj
          · rcases hmin m List.mem_cons_self with h | ⟨h, hle⟩
            · exact Or.inl (h.trans_le (not_lt.mp hge))
            · rcases (not_lt.mp hge).eq_or_lt with heq | hlt
              · exact Or.inr ⟨h.trans heq, hle.trans hmi.le⟩
              · exact Or.inl (h ▸ hlt)
          · exact hmin j (List.mem_cons_of_mem m hj)

/-! ## One iteration, run by run -/

namespace PathState

theorem advance_begin_self (st : PathState n) (m : Fin n) :
    ((st.advance m).boundaries m).beginIdx = (st.boundaries m).beginIdx + st.delta m := by
  simp only [advance, Function.update_self]

theorem advance_begin_of_ne (st : PathState n) {m : Fin n} (h : i ≠ m) :
    ((st.advance m).boundaries i).beginIdx = (st.boundaries i).beginIdx := by
  simp only [advance, Function.update_of_ne h]

theorem advance_end (st : PathState n) (m i : Fin n) :
    ((st.advance m).boundaries i).endIdx = (st.boundaries i).endIdx := by
  rcases eq_or_ne i m with rfl | hne
  · simp only [advance, Function.update_self]
  · simp only [advance, Function.update_of_ne hne]

end PathState

/-! ## The loop invariant -/

/-- The loop is below the canonical cuts at `T`, and they are within the
limits it works with. -/
structure PathInv (runs : Fin n → SortedRun κ) (T : Nat) (st : PathState n) : Prop where
  below : ∀ i, (st.boundaries i).beginIdx ≤ bound runs T i
  above : ∀ i, bound runs T i ≤ (st.boundaries i).endIdx
  within : ∀ i, (st.boundaries i).endIdx ≤ (runs i).count
  active_iff : ∀ i, i ∈ st.active ↔ (st.boundaries i).beginIdx ≠ (st.boundaries i).endIdx
  active_sorted : st.active.Pairwise (· < ·)
  remaining_add : st.remaining + ∑ i, (st.boundaries i).beginIdx = T

theorem PathInv.start {b : Fin n → Boundary} (hT : T ≤ totalCount runs)
    (hbelow : ∀ i, (b i).beginIdx ≤ bound runs T i)
    (habove : ∀ i, bound runs T i ≤ (b i).endIdx)
    (hwithin : ∀ i, (b i).endIdx ≤ (runs i).count) :
    PathInv runs T (PathState.start b T) where
  below := hbelow
  above := habove
  within := hwithin
  active_iff i := by simp [PathState.start]
  active_sorted := (List.pairwise_lt_finRange n).filter _
  remaining_add := by
    have hsum : ∑ i, (b i).beginIdx ≤ ∑ i, bound runs T i :=
      Finset.sum_le_sum fun i _ => hbelow i
    rw [sum_bound_of_le hT] at hsum
    exact Nat.sub_add_cancel hsum

theorem alignValue_div {m k : Nat} (hk : 0 < k) : alignValue m k / k = (m + (k - 1)) / k :=
  Nat.mul_div_cancel _ hk

theorem mul_pred_ceil_lt {m k : Nat} (hm : m ≠ 0) (hk : 0 < k) :
    k * ((m + (k - 1)) / k - 1) < m := by
  have hmul := Nat.div_mul_le_self (m + (k - 1)) k
  rw [Nat.mul_comm] at hmul
  rw [Nat.mul_sub, Nat.mul_one]
  omega

namespace PathInv

theorem lt_end (h : PathInv runs T st) (hi : i ∈ st.active) :
    (st.boundaries i).beginIdx < (st.boundaries i).endIdx :=
  lt_of_le_of_ne ((h.below i).trans (h.above i)) ((h.active_iff i).mp hi)

theorem delta_pos (h : PathInv runs T st) (hr : st.remaining ≠ 0) (hi : i ∈ st.active) :
    0 < st.delta i := by
  have hk : 0 < st.active.length := List.length_pos_of_mem hi
  have hlt := h.lt_end hi
  rw [PathState.delta, computeBoundaryDelta, alignValue_div hk]
  refine lt_min (Nat.div_pos ?_ hk) (by omega)
  omega

theorem begin_add_delta_le (h : PathInv runs T st) (i : Fin n) :
    (st.boundaries i).beginIdx + st.delta i ≤ (st.boundaries i).endIdx := by
  have hle := (h.below i).trans (h.above i)
  have hdelta : st.delta i ≤ (st.boundaries i).endIdx - (st.boundaries i).beginIdx :=
    min_le_right _ _
  omega

/-- An iteration reads keys of the rows between the boundaries only. -/
theorem probe_mem (h : PathInv runs T st) (hr : st.remaining ≠ 0) (hi : i ∈ st.active) :
    (st.boundaries i).beginIdx ≤ st.probe i ∧ st.probe i < (st.boundaries i).endIdx := by
  have hpos := h.delta_pos hr hi
  have hle := h.begin_add_delta_le i
  rw [PathState.probe]
  omega

theorem probe_lt_count (h : PathInv runs T st) (hr : st.remaining ≠ 0) (hi : i ∈ st.active) :
    st.probe i < (runs i).count :=
  (h.probe_mem hr hi).2.trans_le (h.within i)

theorem remaining_eq (h : PathInv runs T st) (hT : T ≤ totalCount runs) :
    st.remaining =
      ∑ i ∈ st.active.toFinset, (bound runs T i - (st.boundaries i).beginIdx) := by
  have hall : ∑ i, (bound runs T i - (st.boundaries i).beginIdx) = st.remaining := by
    rw [Finset.sum_tsub_distrib _ fun i _ => h.below i, sum_bound_of_le hT]
    have := h.remaining_add
    omega
  rw [← hall]
  refine (Finset.sum_subset (Finset.subset_univ _) fun i _ hi => ?_).symm
  have hexhausted : (st.boundaries i).beginIdx = (st.boundaries i).endIdx := by
    by_contra hne
    exact hi (List.mem_toFinset.mpr ((h.active_iff i).mpr hne))
  have := h.above i
  omega

theorem active_ne_nil (h : PathInv runs T st) (hT : T ≤ totalCount runs)
    (hr : st.remaining ≠ 0) : st.active ≠ [] := by
  intro hnil
  refine hr ?_
  rw [h.remaining_eq hT, hnil]
  rfl

/-- The argument of the merge path. If every probe lay behind the cuts,
fewer rows would be missing than are. So one of them lies before, and
the least one does. -/
theorem minRun_probe_lt (h : PathInv runs T st) (hT : T ≤ totalCount runs)
    (hr : st.remaining ≠ 0) {first : Fin n} {rest : List (Fin n)}
    (hactive : st.active = first :: rest) :
    st.probe (st.minRun runs first rest) < bound runs T (st.minRun runs first rest) := by
  have hsorted := h.active_sorted
  rw [hactive] at hsorted
  have hmem : st.minRun runs first rest ∈ st.active := hactive ▸ minRun_mem runs first rest
  have hk : 0 < st.active.length := List.length_pos_of_mem hmem
  by_contra hge
  have hprobe : ∀ j ∈ st.active, bound runs T j ≤ st.probe j := by
    intro j hj
    by_contra hlt
    refine hge ((lt_bound_iff (h.probe_lt_count hr hmem)).mpr ?_)
    have hjT := (lt_bound_iff (h.probe_lt_count hr hj)).mp (not_le.mp hlt)
    refine lt_of_le_of_lt ?_ hjT
    rcases eq_or_ne (st.minRun runs first rest) j with heq | hne
    · rw [heq]
    · refine ((rank_lt_iff (h.probe_lt_count hr hmem)).mpr (element_lt_iff.mpr ?_)).le
      rcases minRun_le runs hsorted j (hactive ▸ hj) with hlt' | ⟨heq, hle⟩
      · exact Or.inl hlt'
      · exact Or.inr ⟨heq, Or.inl (lt_of_le_of_ne hle hne)⟩
  have hbound : ∀ j ∈ st.active.toFinset,
      bound runs T j - (st.boundaries j).beginIdx ≤
        (st.remaining + (st.active.length - 1)) / st.active.length - 1 := by
    intro j hj
    have hle := hprobe j (List.mem_toFinset.mp hj)
    have hdelta : st.delta j ≤ (st.remaining + (st.active.length - 1)) / st.active.length := by
      rw [PathState.delta, computeBoundaryDelta, alignValue_div hk]
      exact min_le_left _ _
    rw [PathState.probe] at hle
    omega
  have hsum := Finset.sum_le_card_nsmul _ _ _ hbound
  rw [← h.remaining_eq hT, List.toFinset_card_of_nodup h.active_sorted.nodup, smul_eq_mul] at hsum
  exact absurd hsum (not_le.mpr (mul_pred_ceil_lt hr hk))

theorem sum_advance (st : PathState n) (m : Fin n) :
    ∑ i, ((st.advance m).boundaries i).beginIdx =
      ∑ i, (st.boundaries i).beginIdx + st.delta m := by
  rw [← Finset.add_sum_erase _ _ (Finset.mem_univ m),
    ← Finset.add_sum_erase _ (fun i => (st.boundaries i).beginIdx) (Finset.mem_univ m),
    st.advance_begin_self m, Finset.sum_congr rfl fun i hi =>
      st.advance_begin_of_ne (Finset.ne_of_mem_erase hi)]
  omega

theorem advance (h : PathInv runs T st) (hT : T ≤ totalCount runs) {m : Fin n}
    (hmem : m ∈ st.active)
    (hbelow : (st.boundaries m).beginIdx + st.delta m ≤ bound runs T m) :
    PathInv runs T (st.advance m) := by
  have hle : ∀ i, ((st.advance m).boundaries i).beginIdx ≤ bound runs T i := by
    intro i
    rcases eq_or_ne i m with rfl | hne
    · rw [st.advance_begin_self]
      exact hbelow
    · rw [st.advance_begin_of_ne hne]
      exact h.below i
  refine ⟨hle, ?_, ?_, ?_, ?_, ?_⟩
  · intro i
    rw [st.advance_end]
    exact h.above i
  · intro i
    rw [st.advance_end]
    exact h.within i
  · intro i
    rw [st.advance_end]
    show i ∈ (if _ then _ else _) ↔ _
    split
    · rename_i heq
      rw [h.active_sorted.nodup.mem_erase_iff]
      rcases eq_or_ne i m with rfl | hne
      · rw [st.advance_begin_self]
        exact ⟨fun hi => absurd rfl hi.1, fun hne => absurd heq hne⟩
      · rw [st.advance_begin_of_ne hne, h.active_iff]
        exact and_iff_right hne
    · rename_i hend
      rcases eq_or_ne i m with rfl | hne
      · rw [st.advance_begin_self]
        exact ⟨fun _ => hend, fun _ => hmem⟩
      · rw [st.advance_begin_of_ne hne]
        exact h.active_iff i
  · show List.Pairwise _ (if _ then _ else _)
    split
    · exact h.active_sorted.sublist List.erase_sublist
    · exact h.active_sorted
  · have htotal : ∑ i, ((st.advance m).boundaries i).beginIdx ≤ T :=
      (Finset.sum_le_sum fun i _ => hle i).trans_eq (sum_bound_of_le hT)
    have hremaining := h.remaining_add
    rw [sum_advance] at htotal ⊢
    show st.remaining - st.delta m + _ = T
    omega

theorem step (h : PathInv runs T st) (hT : T ≤ totalCount runs) (hr : st.remaining ≠ 0) :
    ∃ st', st.step runs = some st' ∧ PathInv runs T st' ∧ st'.remaining < st.remaining ∧
      ∀ i, (st.boundaries i).beginIdx ≤ (st'.boundaries i).beginIdx := by
  obtain ⟨first, rest, hactive⟩ := List.exists_cons_of_ne_nil (h.active_ne_nil hT hr)
  have hstep : st.step runs = some (st.advance (st.minRun runs first rest)) := by
    rw [PathState.step, hactive]
  have hmem : st.minRun runs first rest ∈ st.active := hactive ▸ minRun_mem runs first rest
  have hlt := h.minRun_probe_lt hT hr hactive
  generalize st.minRun runs first rest = m at hmem hlt hstep
  have hpos := h.delta_pos hr hmem
  rw [PathState.probe] at hlt
  refine ⟨_, hstep, h.advance hT hmem (by omega), ?_, fun i => ?_⟩
  · show st.remaining - st.delta m < st.remaining
    omega
  · rcases eq_or_ne i m with rfl | hne
    · rw [st.advance_begin_self]
      exact Nat.le_add_right _ _
    · rw [st.advance_begin_of_ne hne]

/-- With nothing left to do the begin boundaries are the cuts. -/
theorem boundary_eq (h : PathInv runs T st) (hT : T ≤ totalCount runs) (hr : st.remaining = 0)
    (i : Fin n) : (st.boundaries i).beginIdx = bound runs T i := by
  have hsum : ∑ i, (st.boundaries i).beginIdx = ∑ i, bound runs T i := by
    have := h.remaining_add
    rw [sum_bound_of_le hT]
    omega
  exact (Finset.sum_eq_sum_iff_of_le fun i _ => h.below i).mp hsum i (Finset.mem_univ i)

end PathInv

end MiniDuck
