import MiniDuck.IntTypes

/-!
# Statistics of numeric columns

`BaseStatistics` records whether a column can have NULLs and other
values, and data that depends on the type. Statistics are fed through a
`StatsWriter` that is merged into them, merged with other statistics,
copied, and written and read back; a `StatsFeed` is any such history, with
the rows it is about.

Numeric statistics record bounds. Empty statistics have the largest value
as minimum and the smallest as maximum, so the first value replaces both.
`numeric_feed_sound` says that the bounds hold for every row of a feed,
and `numeric_zonemap_sound` that the zone map only prunes what they rule
out.
-/

namespace MiniDuck

/-! ## Statistics of a column -/

structure BaseStatistics (δ : Type) where
  hasNull : Bool
  hasNoNull : Bool
  distinctCount : Nat
  data : δ
  deriving Repr, DecidableEq

namespace BaseStatistics

variable {δ : Type}

/-- `InitializeUnknown`, over the data of unknown statistics. -/
def unknown (data : δ) : BaseStatistics δ := ⟨true, true, 0, data⟩

/-- `InitializeEmpty`, over the data of empty statistics. -/
def empty (data : δ) : BaseStatistics δ := ⟨false, false, 0, data⟩

/-- `BaseStatistics::Merge`; the data is merged by the type. -/
def merge (mergeData : δ → δ → δ) (stats other : BaseStatistics δ) : BaseStatistics δ :=
  { stats with
    hasNull := stats.hasNull || other.hasNull
    hasNoNull := stats.hasNoNull || other.hasNoNull
    data := mergeData stats.data other.data }

def mergeBase (hasNull hasValid : Bool) (stats : BaseStatistics δ) : BaseStatistics δ :=
  { stats with
    hasNull := if hasNull then true else stats.hasNull
    hasNoNull := if hasValid then true else stats.hasNoNull }

end BaseStatistics

inductive StatsMergeType
  | mergeStats
  | expandBounds
  deriving Repr, DecidableEq

/-- A history of statistics over rows of type `ρ`, NULL being `none`. -/
inductive StatsFeed (ρ : Type)
  | empty
  | unknown (rows : List (Option ρ))
  | write (target : StatsFeed ρ) (rows : List (Option ρ))
  | merge (mergeType : StatsMergeType) (target other : StatsFeed ρ)
  | copy (source : StatsFeed ρ)
  | store (legacy : Bool) (source : StatsFeed ρ)

def StatsFeed.rows {ρ : Type} : StatsFeed ρ → List (Option ρ)
  | .empty => []
  | .unknown rows => rows
  | .write target rows => target.rows ++ rows
  | .merge _ target other => target.rows ++ other.rows
  | .copy source => source.rows
  | .store _ source => source.rows

/-! ## Comparisons -/

inductive ComparisonType
  | equal
  | notDistinctFrom
  | notEqual
  | distinctFrom
  | lessThan
  | lessThanOrEqualTo
  | greaterThan
  | greaterThanOrEqualTo
  deriving Repr, DecidableEq

def ComparisonType.holds : ComparisonType → Ordering → Bool
  | .equal, o | .notDistinctFrom, o => o = .eq
  | .notEqual, o | .distinctFrom, o => o ≠ .eq
  | .lessThan, o => o = .lt
  | .lessThanOrEqualTo, o => o ≠ .gt
  | .greaterThan, o => o = .gt
  | .greaterThanOrEqualTo, o => o ≠ .lt

inductive FilterPropagateResult
  | noPruningPossible
  | filterAlwaysTrue
  | filterAlwaysFalse
  deriving Repr, DecidableEq

/-- The loops over the constants of a filter: the first constant that does not rule out the rows
decides. -/
def checkConstants {κ : Type} (check : κ → FilterPropagateResult) : List κ → FilterPropagateResult
  | [] => .filterAlwaysFalse
  | c :: constants =>
      match check c with
      | .noPruningPossible => .noPruningPossible
      | .filterAlwaysTrue => .filterAlwaysTrue
      | .filterAlwaysFalse => checkConstants check constants

/-- A result of the zone map about values of which `cmp v c` tells the order to a constant. -/
structure ZonemapSound {ρ κ : Type} (values : List ρ) (cmp : ρ → κ → Ordering)
    (comparison : ComparisonType) (constants : List κ) (result : FilterPropagateResult) : Prop where
  never : result = .filterAlwaysFalse →
    ∀ v ∈ values, ∀ c ∈ constants, comparison.holds (cmp v c) = false
  always : result = .filterAlwaysTrue →
    ∀ v ∈ values, ∃ c ∈ constants, comparison.holds (cmp v c) = true

/-- A result of the zone map and the outcome of one comparison. -/
def FilterPropagateResult.Allows : FilterPropagateResult → Bool → Prop
  | .noPruningPossible, _ => True
  | .filterAlwaysTrue, b => b = true
  | .filterAlwaysFalse, b => b = false

theorem zonemapSound_singleton {ρ κ : Type} {values : List ρ} {cmp : ρ → κ → Ordering}
    {comparison : ComparisonType} {c : κ} {result : FilterPropagateResult}
    (h : ∀ v ∈ values, result.Allows (comparison.holds (cmp v c))) :
    ZonemapSound values cmp comparison [c] result := by
  refine ⟨?_, ?_⟩
  · rintro rfl v hv d hd
    rw [List.mem_singleton.mp hd]
    exact h v hv
  · rintro rfl v hv
    exact ⟨c, List.mem_singleton_self c, h v hv⟩

theorem checkConstants_sound {ρ κ : Type} {values : List ρ} {cmp : ρ → κ → Ordering}
    {comparison : ComparisonType} {check : κ → FilterPropagateResult} :
    ∀ {constants : List κ},
      (∀ c ∈ constants, ZonemapSound values cmp comparison [c] (check c)) →
      ZonemapSound values cmp comparison constants (checkConstants check constants)
  | [], _ => ⟨fun _ v _ c hc => (List.not_mem_nil hc).elim, fun h => (nomatch h)⟩
  | c :: constants, h => by
      have hc := h c (List.mem_cons_self ..)
      have hrec := checkConstants_sound fun d hd => h d (List.mem_cons_of_mem c hd)
      cases hcheck : check c with
      | noPruningPossible =>
          simp only [checkConstants, hcheck]
          exact ⟨fun h => (nomatch h), fun h => (nomatch h)⟩
      | filterAlwaysTrue =>
          simp only [checkConstants, hcheck]
          refine ⟨fun h => (nomatch h), fun _ v hv => ?_⟩
          obtain ⟨d, hd, hholds⟩ := hc.always hcheck v hv
          obtain rfl := List.mem_singleton.mp hd
          exact ⟨d, List.mem_cons_self .., hholds⟩
      | filterAlwaysFalse =>
          simp only [checkConstants, hcheck]
          refine ⟨fun hfalse v hv d hd => ?_, fun htrue v hv => ?_⟩
          · rcases List.mem_cons.mp hd with rfl | hd
            · exact hc.never hcheck v hv d (List.mem_singleton_self d)
            · exact hrec.never hfalse v hv d hd
          · obtain ⟨d, hd, hholds⟩ := hrec.always htrue v hv
            exact ⟨d, List.mem_cons_of_mem c hd, hholds⟩

/-! ## Numeric statistics -/

/-- The bounds, as far as they are known. -/
structure NumericStatsData (α : Type) where
  min : Option α
  max : Option α
  deriving Repr, DecidableEq

/-- `StatsWriter<T>`. -/
structure NumericStatsWriter (α : Type) where
  hasNull : Bool
  hasValid : Bool
  min : α
  max : α

namespace NumericStats

variable {α : Type} [LinearOrder α]

/-- `UpdateValue`. -/
def updateMin (value min : α) : α := if value < min then value else min

def updateMax (value max : α) : α := if max < value then value else max

def createUnknown : NumericStatsData α := ⟨none, none⟩

def createEmpty [BoundedOrder α] : NumericStatsData α := ⟨some ⊤, some ⊥⟩

def update (data : NumericStatsData α) (value : α) : NumericStatsData α :=
  ⟨data.min.map (updateMin value), data.max.map (updateMax value)⟩

def clear [BoundedOrder α] : NumericStatsWriter α := ⟨false, false, ⊤, ⊥⟩

/-- `StatsWriter::Update`, or `SetHasNull` for a NULL. -/
def updateWriter (writer : NumericStatsWriter α) : Option α → NumericStatsWriter α
  | none => { writer with hasNull := true }
  | some value => { writer with
      hasValid := true
      min := updateMin value writer.min
      max := updateMax value writer.max }

/-- `StatsWriter::Merge`. -/
def mergeWriter (writer : NumericStatsWriter α) (target : BaseStatistics (NumericStatsData α)) :
    BaseStatistics (NumericStatsData α) :=
  let target := target.mergeBase writer.hasNull writer.hasValid
  if writer.hasValid then { target with data := update (update target.data writer.min) writer.max }
  else target

/-- The merge of two bounds, none if one of them is not known. -/
def mergeBound (pick : α → α → α) : Option α → Option α → Option α
  | some o, some b => some (pick o b)
  | _, _ => none

/-- `NumericStats::Merge`. Empty statistics take the bounds of the other side. -/
def merge (stats other : NumericStatsData α) : NumericStatsData α :=
  let merged := ⟨mergeBound updateMin other.min stats.min, mergeBound updateMax other.max stats.max⟩
  match stats.min, stats.max with
  | some min, some max => if max < min then ⟨other.min, other.max⟩ else merged
  | _, _ => merged

/-- `SerializeNumericStatsValue` and `DeserializeNumericStatsValue`: `has_value`, then the value. -/
def serializeValue (value : Option α) : Bool × Option α := (value.isSome, value)

def deserializeValue (value : Bool × Option α) : Option α := if value.1 then value.2 else none

def store (data : NumericStatsData α) : NumericStatsData α :=
  ⟨deserializeValue (serializeValue data.min), deserializeValue (serializeValue data.max)⟩

def constantExactRange (min max constant : α) : Bool := decide (constant = min ∧ constant = max)

def constantValueInRange (min max constant : α) : Bool :=
  decide (¬ (constant < min ∨ max < constant))

/-- `CheckZonemapTemplated` for one constant. -/
def checkZonemapConstant (comparison : ComparisonType) (min max constant : α) :
    FilterPropagateResult :=
  match comparison with
  | .equal | .notDistinctFrom =>
      if constantExactRange min max constant then .filterAlwaysTrue
      else if constantValueInRange min max constant then .noPruningPossible
      else .filterAlwaysFalse
  | .notEqual | .distinctFrom =>
      if !constantValueInRange min max constant then .filterAlwaysTrue
      else if constantExactRange min max constant then .filterAlwaysFalse
      else .noPruningPossible
  | .greaterThanOrEqualTo =>
      if constant ≤ min then .filterAlwaysTrue
      else if constant ≤ max then .noPruningPossible
      else .filterAlwaysFalse
  | .greaterThan =>
      if constant < min then .filterAlwaysTrue
      else if constant < max then .noPruningPossible
      else .filterAlwaysFalse
  | .lessThanOrEqualTo =>
      if max ≤ constant then .filterAlwaysTrue
      else if min ≤ constant then .noPruningPossible
      else .filterAlwaysFalse
  | .lessThan =>
      if max < constant then .filterAlwaysTrue
      else if min < constant then .noPruningPossible
      else .filterAlwaysFalse

def checkZonemap (data : NumericStatsData α) (comparison : ComparisonType) (constants : List α) :
    FilterPropagateResult :=
  match data.min, data.max with
  | some min, some max =>
      if min ≤ max then checkConstants (checkZonemapConstant comparison min max) constants
      else .noPruningPossible
  | _, _ => .noPruningPossible

def run [BoundedOrder α] : StatsFeed α → BaseStatistics (NumericStatsData α)
  | .empty => .empty createEmpty
  | .unknown _ => .unknown createUnknown
  | .write target rows => mergeWriter (rows.foldl updateWriter clear) (run target)
  | .merge _ target other => (run target).merge merge (run other)
  | .copy source => run source
  | .store _ source => { run source with data := store (run source).data }

/-! ## Soundness -/

/-- The values of a column lie within the bounds. -/
structure Bounds (data : NumericStatsData α) (values : List α) : Prop where
  min : ∀ m, data.min = some m → ∀ v ∈ values, m ≤ v
  max : ∀ m, data.max = some m → ∀ v ∈ values, v ≤ m

theorem updateMin_le (v m : α) : updateMin v m ≤ v ∧ updateMin v m ≤ m := by
  unfold updateMin
  split
  · rename_i h
    exact ⟨le_rfl, h.le⟩
  · rename_i h
    exact ⟨not_lt.mp h, le_rfl⟩

theorem le_updateMax (v m : α) : v ≤ updateMax v m ∧ m ≤ updateMax v m := by
  unfold updateMax
  split
  · rename_i h
    exact ⟨le_rfl, h.le⟩
  · rename_i h
    exact ⟨not_lt.mp h, le_rfl⟩

theorem bounds_nil (data : NumericStatsData α) : Bounds data [] :=
  ⟨fun _ _ _ hv => (List.not_mem_nil hv).elim, fun _ _ _ hv => (List.not_mem_nil hv).elim⟩

theorem bounds_unknown (values : List α) : Bounds createUnknown values :=
  ⟨fun _ h => (nomatch h), fun _ h => (nomatch h)⟩

variable {data : NumericStatsData α} {values : List α}

theorem bounds_append {values' : List α} (h : Bounds data values) (h' : Bounds data values') :
    Bounds data (values ++ values') := by
  refine ⟨fun m hm v hv => ?_, fun m hm v hv => ?_⟩
  · rcases List.mem_append.mp hv with hv | hv
    · exact h.min m hm v hv
    · exact h'.min m hm v hv
  · rcases List.mem_append.mp hv with hv | hv
    · exact h.max m hm v hv
    · exact h'.max m hm v hv

/-- A value that is fed lies within the new bounds, and so does all that lay within the old. -/
theorem bounds_update (h : Bounds data values) (v : α) : Bounds (update data v) (v :: values) := by
  refine ⟨fun m hm w hw => ?_, fun m hm w hw => ?_⟩
  · obtain ⟨b, hb, rfl⟩ := Option.map_eq_some_iff.mp hm
    rcases List.mem_cons.mp hw with rfl | hw
    · exact (updateMin_le w b).1
    · exact (updateMin_le v b).2.trans (h.min b hb w hw)
  · obtain ⟨b, hb, rfl⟩ := Option.map_eq_some_iff.mp hm
    rcases List.mem_cons.mp hw with rfl | hw
    · exact (le_updateMax w b).1
    · exact (h.max b hb w hw).trans (le_updateMax v b).2

/-- What lies between two values that lie within the bounds lies within them. -/
theorem bounds_between {lo hi : α} (h : Bounds data (hi :: lo :: values)) {between : List α}
    (hb : ∀ v ∈ between, lo ≤ v ∧ v ≤ hi) : Bounds data (values ++ between) := by
  refine bounds_append ⟨fun m hm v hv => ?_, fun m hm v hv => ?_⟩
    ⟨fun m hm v hv => ?_, fun m hm v hv => ?_⟩
  · exact h.min m hm v (by simp [hv])
  · exact h.max m hm v (by simp [hv])
  · exact (h.min m hm lo (by simp)).trans (hb v hv).1
  · exact (hb v hv).2.trans (h.max m hm hi (by simp))

theorem bounds_merge {other : NumericStatsData α} {values' : List α} (h : Bounds data values)
    (h' : Bounds other values') : Bounds (merge data other) (values ++ values') := by
  have hmerged : Bounds
      ⟨mergeBound updateMin other.min data.min, mergeBound updateMax other.max data.max⟩
      (values ++ values') := by
    refine ⟨fun m hm v hv => ?_, fun m hm v hv => ?_⟩
    · cases hmin : data.min with
      | none => cases hmin' : other.min <;> simp [mergeBound, hmin, hmin'] at hm
      | some b => cases hmin' : other.min with
        | none => simp [mergeBound, hmin, hmin'] at hm
        | some o =>
            obtain rfl : updateMin o b = m := by simpa [mergeBound, hmin, hmin'] using hm
            rcases List.mem_append.mp hv with hv | hv
            · exact (updateMin_le o b).2.trans (h.min b hmin v hv)
            · exact (updateMin_le o b).1.trans (h'.min o hmin' v hv)
    · cases hmax : data.max with
      | none => cases hmax' : other.max <;> simp [mergeBound, hmax, hmax'] at hm
      | some b => cases hmax' : other.max with
        | none => simp [mergeBound, hmax, hmax'] at hm
        | some o =>
            obtain rfl : updateMax o b = m := by simpa [mergeBound, hmax, hmax'] using hm
            rcases List.mem_append.mp hv with hv | hv
            · exact (h.max b hmax v hv).trans (le_updateMax o b).2
            · exact (h'.max o hmax' v hv).trans (le_updateMax o b).1
  unfold merge
  split
  · rename_i min max hmin hmax
    split
    · rename_i hlt
      -- inverted bounds leave no room for a value
      have hempty : values = [] := by
        refine List.eq_nil_iff_forall_not_mem.mpr fun v hv => ?_
        exact absurd ((h.min min hmin v hv).trans (h.max max hmax v hv)) (not_le.mpr hlt)
      rw [hempty, List.nil_append]
      exact ⟨h'.min, h'.max⟩
    · exact hmerged
  · exact hmerged

omit [LinearOrder α] in
theorem store_eq (data : NumericStatsData α) : store data = data := by
  have hvalue (v : Option α) : deserializeValue (serializeValue v) = v := by cases v <;> rfl
  simp [store, hvalue]

end NumericStats

def validRows {ρ : Type} (rows : List (Option ρ)) : List ρ := rows.filterMap id

theorem mem_validRows {ρ : Type} {rows : List (Option ρ)} {v : ρ} :
    v ∈ validRows rows ↔ some v ∈ rows := by
  simp [validRows]

theorem validRows_append {ρ : Type} (rows rows' : List (Option ρ)) :
    validRows (rows ++ rows') = validRows rows ++ validRows rows' :=
  List.filterMap_append

namespace NumericStats

variable {α : Type} [LinearOrder α]

structure Wrote (writer : NumericStatsWriter α) (rows : List (Option α)) : Prop where
  null : writer.hasNull = true ↔ none ∈ rows
  valid : writer.hasValid = true ↔ validRows rows ≠ []
  between : ∀ v ∈ validRows rows, writer.min ≤ v ∧ v ≤ writer.max

theorem wrote_clear [BoundedOrder α] : Wrote (clear : NumericStatsWriter α) [] :=
  ⟨by simp [clear], by simp [clear, validRows], fun _ hv => (List.not_mem_nil hv).elim⟩

variable {writer : NumericStatsWriter α} {rows : List (Option α)}

theorem wrote_update (h : Wrote writer rows) (row : Option α) :
    Wrote (updateWriter writer row) (rows ++ [row]) := by
  rw [← List.concat_eq_append]
  cases row with
  | none =>
      refine ⟨by simp [updateWriter], ?_, ?_⟩
      · simpa [updateWriter, validRows] using h.valid
      · simpa [updateWriter, validRows] using h.between
  | some v =>
      refine ⟨by simpa [updateWriter] using h.null, by simp [updateWriter, validRows], ?_⟩
      intro w hw
      rw [List.concat_eq_append, validRows_append, List.mem_append] at hw
      show updateMin v writer.min ≤ w ∧ w ≤ updateMax v writer.max
      rcases hw with hw | hw
      · obtain ⟨hlo, hhi⟩ := h.between w hw
        exact ⟨(updateMin_le v _).2.trans hlo, hhi.trans (le_updateMax v _).2⟩
      · obtain rfl : w = v := by simpa [validRows] using hw
        exact ⟨(updateMin_le w _).1, (le_updateMax w _).1⟩

theorem wrote_foldl (h : Wrote writer rows) (more : List (Option α)) :
    Wrote (more.foldl updateWriter writer) (rows ++ more) := by
  induction more generalizing writer rows with
  | nil => simpa using h
  | cons row more ih =>
      have := ih (wrote_update h row)
      rwa [List.append_assoc, List.singleton_append] at this

structure Sound (stats : BaseStatistics (NumericStatsData α)) (rows : List (Option α)) : Prop where
  null : none ∈ rows → stats.hasNull = true
  valid : validRows rows ≠ [] → stats.hasNoNull = true
  bounds : Bounds stats.data (validRows rows)

theorem sound_write {stats : BaseStatistics (NumericStatsData α)} {rows' : List (Option α)}
    (h : Sound stats rows) (hw : Wrote writer rows') :
    Sound (mergeWriter writer stats) (rows ++ rows') := by
  have hflags :
      (mergeWriter writer stats).hasNull = (if writer.hasNull then true else stats.hasNull) ∧
      (mergeWriter writer stats).hasNoNull =
        if writer.hasValid then true else stats.hasNoNull := by
    cases hvalid : writer.hasValid <;> simp [mergeWriter, BaseStatistics.mergeBase, hvalid]
  refine ⟨fun hnull => ?_, fun hvalid => ?_, ?_⟩
  · rw [hflags.1]
    rcases List.mem_append.mp hnull with hnull | hnull
    · simp [h.null hnull]
    · simp [hw.null.mpr hnull]
  · rw [hflags.2]
    by_cases hrows' : validRows rows' = []
    · rw [validRows_append, hrows', List.append_nil] at hvalid
      simp [h.valid hvalid]
    · simp [hw.valid.mpr hrows']
  · rw [validRows_append]
    by_cases hvalid : writer.hasValid = true
    · have hdata : (mergeWriter writer stats).data =
          update (update stats.data writer.min) writer.max := by
        simp [mergeWriter, hvalid, BaseStatistics.mergeBase]
      rw [hdata]
      exact bounds_between (bounds_update (bounds_update h.bounds writer.min) writer.max) hw.between
    · have hdata : (mergeWriter writer stats).data = stats.data := by
        simp [mergeWriter, hvalid, BaseStatistics.mergeBase]
      have hnil : validRows rows' = [] := not_not.mp fun hne => hvalid (hw.valid.mpr hne)
      rw [hdata, hnil, List.append_nil]
      exact h.bounds

theorem sound_merge {stats other : BaseStatistics (NumericStatsData α)} {rows' : List (Option α)}
    (h : Sound stats rows) (h' : Sound other rows') :
    Sound (stats.merge merge other) (rows ++ rows') := by
  refine ⟨fun hnull => ?_, fun hvalid => ?_, ?_⟩
  · rcases List.mem_append.mp hnull with hnull | hnull
    · simp [BaseStatistics.merge, h.null hnull]
    · simp [BaseStatistics.merge, h'.null hnull]
  · rw [validRows_append, Ne, List.append_eq_nil_iff, not_and_or] at hvalid
    rcases hvalid with hvalid | hvalid
    · simp [BaseStatistics.merge, h.valid hvalid]
    · simp [BaseStatistics.merge, h'.valid hvalid]
  · rw [validRows_append]
    exact bounds_merge h.bounds h'.bounds

/-- At the end of every history the statistics hold for its rows. -/
theorem numeric_feed_sound [BoundedOrder α] (feed : StatsFeed α) : Sound (run feed) feed.rows := by
  induction feed with
  | empty =>
      exact ⟨fun h => (List.not_mem_nil h).elim, fun h => absurd rfl h, bounds_nil _⟩
  | unknown rows => exact ⟨fun _ => rfl, fun _ => rfl, bounds_unknown _⟩
  | write target rows ih =>
      have hw := wrote_foldl wrote_clear rows
      exact sound_write ih hw
  | merge mergeType target other ih ih' => exact sound_merge ih ih'
  | copy source ih => exact ih
  | store legacy source ih =>
      refine ⟨ih.null, ih.valid, ?_⟩
      show Bounds (store (run source).data) _
      rw [store_eq]
      exact ih.bounds

/-! ## The zone map -/

theorem holds_compare (comparison : ComparisonType) (v c : α) :
    comparison.holds (compare v c) = true ↔
      match comparison with
      | .equal | .notDistinctFrom => v = c
      | .notEqual | .distinctFrom => v ≠ c
      | .lessThan => v < c
      | .lessThanOrEqualTo => v ≤ c
      | .greaterThan => c < v
      | .greaterThanOrEqualTo => c ≤ v := by
  cases comparison <;>
    simp [ComparisonType.holds, compare_lt_iff_lt, compare_gt_iff_gt]

/-- The bounds of the values decide as they are compared to the constant. -/
theorem checkZonemapConstant_sound {min max : α} {values : List α}
    (h : ∀ v ∈ values, min ≤ v ∧ v ≤ max) (comparison : ComparisonType) (constant : α) :
    ZonemapSound values compare comparison [constant]
      (checkZonemapConstant comparison min max constant) := by
  refine zonemapSound_singleton fun v hv => ?_
  obtain ⟨hlo, hhi⟩ := h v hv
  have hin (hc : ¬ constantValueInRange min max constant = true) : v ≠ constant := by
    rintro rfl
    simp [constantValueInRange, hlo, hhi] at hc
  have hexact (hc : constantExactRange min max constant = true) : v = constant := by
    obtain ⟨rfl, rfl⟩ : constant = min ∧ constant = max := by simpa [constantExactRange] using hc
    exact le_antisymm hhi hlo
  have hholds := holds_compare comparison v constant
  cases comparison with
  | equal | notDistinctFrom =>
      simp only [checkZonemapConstant]
      split_ifs with hx hr
      · exact hholds.mpr (hexact hx)
      · trivial
      · exact Bool.eq_false_iff.mpr fun h => hin hr (hholds.mp h)
  | notEqual | distinctFrom =>
      simp only [checkZonemapConstant]
      split_ifs with hr hx
      · exact hholds.mpr (hin (by simpa using hr))
      · exact Bool.eq_false_iff.mpr fun h => hholds.mp h (hexact hx)
      · trivial
  | lessThan =>
      simp only [checkZonemapConstant]
      split_ifs with ht hn
      · exact hholds.mpr (hhi.trans_lt ht)
      · trivial
      · exact Bool.eq_false_iff.mpr fun h => hn (hlo.trans_lt (hholds.mp h))
  | lessThanOrEqualTo =>
      simp only [checkZonemapConstant]
      split_ifs with ht hn
      · exact hholds.mpr (hhi.trans ht)
      · trivial
      · exact Bool.eq_false_iff.mpr fun h => hn (hlo.trans (hholds.mp h))
  | greaterThan =>
      simp only [checkZonemapConstant]
      split_ifs with ht hn
      · exact hholds.mpr (ht.trans_le hlo)
      · trivial
      · exact Bool.eq_false_iff.mpr fun h => hn ((hholds.mp h).trans_le hhi)
  | greaterThanOrEqualTo =>
      simp only [checkZonemapConstant]
      split_ifs with ht hn
      · exact hholds.mpr (ht.trans hlo)
      · trivial
      · exact Bool.eq_false_iff.mpr fun h => hn ((hholds.mp h).trans hhi)

theorem numeric_zonemap_sound {data : NumericStatsData α} {values : List α}
    (h : Bounds data values) (comparison : ComparisonType) (constants : List α) :
    ZonemapSound values compare comparison constants (checkZonemap data comparison constants) := by
  have hnone : ZonemapSound values compare comparison constants .noPruningPossible :=
    ⟨fun h => (nomatch h), fun h => (nomatch h)⟩
  unfold checkZonemap
  split
  · rename_i min max hmin hmax
    split
    · exact checkConstants_sound fun c _ => checkZonemapConstant_sound
        (fun v hv => ⟨h.min min hmin v hv, h.max max hmax v hv⟩) comparison c
    · exact hnone
  · exact hnone

end NumericStats

end MiniDuck
