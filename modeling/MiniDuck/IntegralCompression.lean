import MiniDuck.NumericStats
import MiniDuck.SwarWord

/-!
# Compressed materialization of integers

A column of integers whose statistics bound it is materialized in a
narrower type: `GetIntegralCompress` finds the unsigned type of the range
of the values, prefers a plain cast to a type of that width if the bounds
survive it, and subtracts the minimum otherwise. The column is restored
from the same statistics, which are asked again for the minimum or for
the statistics of the cast.

Either way the compressed value is the value less a constant
(`Shifted`), within the bounds of both types, so no conversion on the way
loses a digit. `getIntegralCompress_lossless` collects what follows.
-/

namespace MiniDuck

/-! ## Conversions -/

/-- The types of `LogicalType::IsIntegral`. -/
structure IntegralType where
  signed : Bool
  width : IntWidth
  deriving Repr, DecidableEq

namespace IntegralType

def ubigint : IntegralType := ⟨false, .w64⟩

def Bounds (type : IntegralType) (v : Int) : Prop := IntBounds type.signed type.width.bytes v

instance (type : IntegralType) (v : Int) : Decidable (type.Bounds v) :=
  inferInstanceAs (Decidable (IntBounds ..))

abbrev Value (type : IntegralType) : Type := IntValue type.signed type.width

abbrev Stats (type : IntegralType) : Type := BaseStatistics (NumericStatsData type.Value)

/-- `static_cast`, which drops the upper digits. -/
def wrap (type : IntegralType) (v : Int) : Int :=
  if type.signed then v.bmod (2 ^ (8 * type.width.bytes)) else v % 2 ^ (8 * type.width.bytes)

theorem wrap_bounds (type : IntegralType) (v : Int) : type.Bounds (type.wrap v) := by
  obtain ⟨signed, width⟩ := type
  cases signed <;> cases width <;>
    simp [Bounds, IntBounds, wrap, IntWidth.bytes, Int.bmod] <;> omega

theorem wrap_of_bounds {type : IntegralType} {v : Int} (h : type.Bounds v) : type.wrap v = v := by
  obtain ⟨signed, width⟩ := type
  cases signed <;> cases width <;>
    simp [Bounds, IntBounds, wrap, IntWidth.bytes, Int.bmod] at h ⊢ <;> omega

/-- What lies between two numbers of a type is one of the type. -/
theorem Bounds.between {type : IntegralType} {lo v hi : Int} (hlo : type.Bounds lo)
    (hhi : type.Bounds hi) (h : lo ≤ v) (h' : v ≤ hi) : type.Bounds v := by
  unfold Bounds IntBounds at *
  split at hlo
  · rw [if_pos ‹_›] at hhi ⊢
    exact ⟨hlo.1.trans h, lt_of_le_of_lt h' hhi.2⟩
  · rw [if_neg ‹_›] at hhi ⊢
    exact ⟨hlo.1.trans h, lt_of_le_of_lt h' hhi.2⟩

theorem zero_bounds (type : IntegralType) : type.Bounds 0 := by
  obtain ⟨signed, width⟩ := type
  cases signed <;> cases width <;> decide

def staticCast (type : IntegralType) (v : Int) : type.Value := ⟨type.wrap v, type.wrap_bounds v⟩

theorem staticCast_of_bounds {type : IntegralType} {v : Int} (h : type.Bounds v) :
    (type.staticCast v).1 = v :=
  wrap_of_bounds h

end IntegralType

open IntegralType

/-- `Value::DefaultTryCastAs` between integral types. -/
def defaultTryCastAs (target : IntegralType) (v : Int) : Option target.Value :=
  if h : target.Bounds v then some ⟨v, h⟩ else none

theorem defaultTryCastAs_eq_some {target : IntegralType} {v : Int} {w : target.Value} :
    defaultTryCastAs target v = some w ↔ w.1 = v := by
  unfold defaultTryCastAs
  constructor
  · intro h
    split at h
    · obtain rfl := Option.some.inj h
      rfl
    · cases h
  · rintro rfl
    exact dif_pos w.2

/-! ## Statistics of casts -/

inductive CastException
  | conversion
  | internal (message : String)
  deriving Repr, DecidableEq

/-- `StatisticsOperationsNumericNumericCast`. -/
def propagateDefaultCastStatistics {source : IntegralType} (target : IntegralType)
    (input : source.Stats) : Option target.Stats :=
  if !input.hasNoNull then
    some ⟨input.hasNull, input.hasNoNull, input.distinctCount, NumericStats.createEmpty⟩
  else
    match input.data.min, input.data.max with
    | some min, some max =>
        match defaultTryCastAs target min.1, defaultTryCastAs target max.1 with
        | some min, some max =>
            some ⟨input.hasNull, input.hasNoNull, input.distinctCount, ⟨some min, some max⟩⟩
        | _, _ => none
    | _, _ => none

/-- A cast of which the statistics are known. Between types of at most eight bytes it is
unchecked. -/
def castOperation {source : IntegralType} (target : IntegralType) (v : source.Value) :
    Except CastException target.Value :=
  if source.width = .w128 ∨ target.width = .w128 then
    match defaultTryCastAs target v.1 with
    | some w => .ok w
    | none => .error .conversion
  else .ok (target.staticCast v.1)

theorem castOperation_ok {source target : IntegralType} {v : source.Value} {w : target.Value}
    (h : w.1 = v.1) : castOperation target v = .ok w := by
  unfold castOperation
  split
  · rw [defaultTryCastAs_eq_some.mpr h]
  · refine congrArg Except.ok (Subtype.ext ?_)
    exact (wrap_of_bounds (h ▸ w.2)).trans h.symm

/-- `CMHelper::CreateDefaultStatsAwareCast`: the cast and its statistics. -/
def createDefaultStatsAwareCast {source : IntegralType} (target : IntegralType)
    (inputStats : source.Stats) :
    Except CastException ((source.Value → Except CastException target.Value) × target.Stats) :=
  match propagateDefaultCastStatistics target inputStats with
  | none => .error (.internal "Could not propagate cast statistics in compressed materialization")
  | some stats => .ok (castOperation target, stats)

/-! ## Choice of the type -/

/-- `CMHelper::GetIntegralRangeValue`. The subtraction is one of the column's type; where it
overflows the range is as large as can be. -/
def getIntegralRangeValue {type : IntegralType} (min max : type.Value) : Int :=
  if max < min then intMaximum false .w128
  else if type.Bounds (max.1 - min.1) then max.1 - min.1
  else intMaximum false .w128

def getIntegralOffsetType (range : Int) : IntWidth :=
  if range ≤ intMaximum false .w8 then .w8
  else if range ≤ intMaximum false .w16 then .w16
  else if range ≤ intMaximum false .w32 then .w32
  else .w64

structure OffsetCompressInfo (type : IntegralType) where
  offsetType : IntWidth
  min : Option type.Value
  rangeValue : Int

def getIntegralOffsetCompressInfo {type : IntegralType} (stats : type.Stats) :
    Option (OffsetCompressInfo type) :=
  if !stats.hasNoNull then some ⟨.w8, none, 0⟩
  else
    match stats.data.min, stats.data.max with
    | some min, some max =>
        match defaultTryCastAs ubigint (getIntegralRangeValue min max) with
        | none => none
        | some range => some ⟨getIntegralOffsetType range.1, some min, range.1⟩
    | _, _ => none

/-- `CMHelper::GetSameWidthIntegralType`, none for `LogicalType::INVALID`. -/
def getSameWidthIntegralType (width : IntWidth) (useSigned : Bool) : Option IntegralType :=
  match width with
  | .w128 => none
  | width => some ⟨useSigned, width⟩

def valuePreservingCastFits {source : IntegralType} (value : source.Value)
    (target : IntegralType) : Bool :=
  match defaultTryCastAs target value.1 with
  | none => false
  | some castValue =>
      match defaultTryCastAs source castValue.1 with
      | none => false
      | some roundtripValue => decide (value = roundtripValue)

/-- `CMHelper::GetIntegralCastType`, none for `LogicalType::INVALID`. -/
def getIntegralCastType {source : IntegralType} (offsetType : IntWidth) (stats : source.Stats) :
    Option IntegralType :=
  if source.width.bytes ≤ offsetType.bytes then none
  else
    let preferredType := getSameWidthIntegralType offsetType source.signed
    if !stats.hasNoNull then preferredType
    else
      match stats.data.min, stats.data.max with
      | some min, some max =>
          let alternateType := getSameWidthIntegralType offsetType (!source.signed)
          let fits (type : IntegralType) :=
            valuePreservingCastFits min type && valuePreservingCastFits max type
          (preferredType.filter fits).or (alternateType.filter fits)
      | _, _ => none

/-! ## Compression -/

/-- `TemplatedIntegralCompress`. Of a difference of 16 bytes the lower half is kept. -/
def integralCompress {source : IntegralType} (target : IntegralType) (minVal input : source.Value) :
    target.Value :=
  let difference := (source.staticCast (input.1 - minVal.1)).1
  if source.width = .w128 then target.staticCast (difference % 2 ^ 64)
  else target.staticCast difference

def integralDecompress {source target : IntegralType} (minVal : target.Value)
    (input : source.Value) : target.Value :=
  target.staticCast (minVal.1 + (target.staticCast input.1).1)

/-- The data of a constant. That of NULL is not specified. -/
def constantData {type : IntegralType} (v : Option type.Value) : type.Value :=
  v.getD (type.staticCast 0)

inductive CompressedMaterializationType
  | function
  | cast
  deriving Repr, DecidableEq

structure CompressExpression (source : IntegralType) where
  target : IntegralType
  expression : source.Value → Except CastException target.Value
  stats : target.Stats
  materializationType : CompressedMaterializationType

def createIntegralCastCompress {source : IntegralType} (target : IntegralType)
    (stats : source.Stats) : Except CastException (Option (CompressExpression source)) :=
  match propagateDefaultCastStatistics target stats with
  | none => .ok none
  | some compressStats =>
      match propagateDefaultCastStatistics source compressStats with
      | none => .ok none
      | some _ =>
          match createDefaultStatsAwareCast target stats with
          | .error e => .error e
          | .ok (expression, compressStats) => .ok (some ⟨target, expression, compressStats, .cast⟩)

def createIntegralFunctionCompress {source : IntegralType} (target : IntegralType)
    (info : OffsetCompressInfo source) (stats : source.Stats) :
    Except CastException (CompressExpression source) :=
  match defaultTryCastAs target 0, defaultTryCastAs target info.rangeValue with
  | some min, some max =>
      .ok ⟨target, fun input => .ok (integralCompress target (constantData info.min) input),
        ⟨stats.hasNull, stats.hasNoNull, stats.distinctCount, ⟨some min, some max⟩⟩, .function⟩
  | _, _ => .error .conversion

def getIntegralCompress {type : IntegralType} (stats : type.Stats) :
    Except CastException (Option (CompressExpression type)) :=
  if type.width.bytes = 1 then .ok none
  else
    match getIntegralOffsetCompressInfo stats with
    | none => .ok none
    | some info =>
        if info.offsetType.bytes = type.width.bytes then .ok none
        else
          match getIntegralCastType info.offsetType stats with
          | none => (createIntegralFunctionCompress ⟨false, info.offsetType⟩ info stats).map some
          | some castType =>
              match createIntegralCastCompress castType stats with
              | .error e => .error e
              | .ok (some result) => .ok (some result)
              | .ok none =>
                  (createIntegralFunctionCompress ⟨false, info.offsetType⟩ info stats).map some

/-- `GetIntegralDecompress`, with the minimum of the column's statistics. -/
def getIntegralDecompress {source : IntegralType} (input : IntegralType) (stats : source.Stats) :
    input.Value → Except CastException source.Value :=
  let min := if !stats.hasNoNull then none else stats.data.min
  fun v => .ok (integralDecompress (constantData min) v)

def createRestoreExpression {source : IntegralType} (compress : CompressExpression source)
    (stats : source.Stats) :
    Except CastException (compress.target.Value → Except CastException source.Value) :=
  match compress.materializationType with
  | .function => .ok (getIntegralDecompress compress.target stats)
  | .cast =>
      match propagateDefaultCastStatistics compress.target stats with
      | none =>
          .error (.internal "Could not obtain compressed statistics for cast restoration")
      | some sourceStats => (createDefaultStatsAwareCast source sourceStats).map Prod.fst

/-! ## What the statistics cover -/

structure Covered {type : IntegralType} (stats : type.Stats) (v : type.Value) : Prop where
  valid : stats.hasNoNull = true
  bounds : NumericStats.Bounds stats.data [v]

theorem covered_iff {type : IntegralType} {stats : type.Stats} {min max : type.Value}
    (hmin : stats.data.min = some min) (hmax : stats.data.max = some max) (v : type.Value) :
    Covered stats v ↔ stats.hasNoNull = true ∧ min.1 ≤ v.1 ∧ v.1 ≤ max.1 := by
  constructor
  · intro h
    exact ⟨h.valid, h.bounds.min min hmin v (List.mem_singleton_self v),
      h.bounds.max max hmax v (List.mem_singleton_self v)⟩
  · rintro ⟨hvalid, hlo, hhi⟩
    refine ⟨hvalid, ⟨fun m hm w hw => ?_, fun m hm w hw => ?_⟩⟩
    · obtain rfl := Option.some.inj (hmin.symm.trans hm)
      obtain rfl := List.mem_singleton.mp hw
      exact hlo
    · obtain rfl := Option.some.inj (hmax.symm.trans hm)
      obtain rfl := List.mem_singleton.mp hw
      exact hhi

theorem propagate_covered {source target : IntegralType} {stats : source.Stats}
    {result : target.Stats} (h : propagateDefaultCastStatistics target stats = some result)
    {v : source.Value} (hv : Covered stats v) :
    ∃ w : target.Value, w.1 = v.1 ∧ Covered result w := by
  unfold propagateDefaultCastStatistics at h
  rw [hv.valid, Bool.not_true, if_neg Bool.false_ne_true] at h
  split at h
  · rename_i min max hmin hmax
    split at h
    · rename_i tmin tmax htmin htmax
      obtain rfl := Option.some.inj h
      rw [defaultTryCastAs_eq_some] at htmin htmax
      obtain ⟨-, hlo, hhi⟩ := (covered_iff hmin hmax v).mp hv
      rw [← htmin] at hlo
      rw [← htmax] at hhi
      refine ⟨⟨v.1, @Bounds.between target _ _ _ tmin.2 tmax.2 hlo hhi⟩, rfl, ?_⟩
      exact (covered_iff rfl rfl _).mpr ⟨rfl, hlo, hhi⟩
    · cases h
  · cases h

/-! ## What compression does -/

/-- The compressed value is the value less `base`, which the compressed statistics cover, and
`restore` brings it back. -/
structure Shifts {source : IntegralType} (compress : CompressExpression source)
    (stats : source.Stats) (base : Int)
    (restore : compress.target.Value → Except CastException source.Value) : Prop where
  value : ∀ v, Covered stats v → ∃ w, compress.expression v = .ok w ∧ w.1 = v.1 - base ∧
    Covered compress.stats w ∧ restore w = .ok v

/-- Compression is lossless and keeps the order of the values that the statistics cover. -/
structure Lossless {source : IntegralType} (compress : CompressExpression source)
    (stats : source.Stats) : Prop where
  narrower : compress.target.width.bytes < source.width.bytes
  restores : ∃ restore, createRestoreExpression compress stats = .ok restore ∧
    ∀ v, Covered stats v →
      ∃ w, compress.expression v = .ok w ∧ Covered compress.stats w ∧ restore w = .ok v
  ordered : ∀ v v', Covered stats v → Covered stats v' → ∀ w w',
    compress.expression v = .ok w → compress.expression v' = .ok w' →
    compare w w' = compare v v'

theorem lossless_of_shifts {source : IntegralType} {compress : CompressExpression source}
    {stats : source.Stats} {base : Int}
    {restore : compress.target.Value → Except CastException source.Value}
    (hnarrower : compress.target.width.bytes < source.width.bytes)
    (hrestore : createRestoreExpression compress stats = .ok restore)
    (h : Shifts compress stats base restore) : Lossless compress stats := by
  refine ⟨hnarrower, ⟨restore, hrestore, fun v hv => ?_⟩, fun v v' hv hv' w w' hw hw' => ?_⟩
  · obtain ⟨w, hw, -, hcovered, hback⟩ := h.value v hv
    exact ⟨w, hw, hcovered, hback⟩
  · obtain ⟨x, hx, hxv, -, -⟩ := h.value v hv
    obtain ⟨x', hx', hxv', -, -⟩ := h.value v' hv'
    obtain rfl := Except.ok.inj (hw.symm.trans hx)
    obtain rfl := Except.ok.inj (hw'.symm.trans hx')
    refine compare_congr ?_ ?_
    · show w.1 < w'.1 ↔ v.1 < v'.1
      omega
    · show w'.1 < w.1 ↔ v'.1 < v.1
      omega

/-! ## The cast -/

theorem getIntegralCastType_some {source : IntegralType} {offsetType : IntWidth}
    {stats : source.Stats} {castType : IntegralType}
    (h : getIntegralCastType offsetType stats = some castType) :
    castType.width.bytes < source.width.bytes := by
  have hsame {useSigned : Bool} {type : IntegralType}
      (ht : getSameWidthIntegralType offsetType useSigned = some type) :
      type.width = offsetType := by
    cases offsetType <;> simp [getSameWidthIntegralType] at ht <;> simp [← ht]
  unfold getIntegralCastType at h
  split at h
  · cases h
  · rename_i hlt
    have hwidth : castType.width = offsetType := by
      dsimp only at h
      split at h
      · exact hsame h
      · split at h
        · rcases Option.or_eq_some_iff.mp h with h | ⟨-, h⟩
          · exact hsame (Option.filter_eq_some_iff.mp h).1
          · exact hsame (Option.filter_eq_some_iff.mp h).1
        · cases h
    rw [hwidth]
    exact not_le.mp hlt

theorem createIntegralCastCompress_lossless {source : IntegralType} {target : IntegralType}
    {stats : source.Stats} (hnarrower : target.width.bytes < source.width.bytes) :
    ∃ result, createIntegralCastCompress target stats = .ok result ∧
      ∀ compress, result = some compress → Lossless compress stats := by
  unfold createIntegralCastCompress
  split
  · exact ⟨none, rfl, fun _ h => nomatch h⟩
  · rename_i compressStats hstats
    split
    · exact ⟨none, rfl, fun _ h => nomatch h⟩
    · rename_i restoredStats hrestored
      simp only [createDefaultStatsAwareCast, hstats]
      refine ⟨_, rfl, fun compress hc => ?_⟩
      obtain rfl := Option.some.inj hc
      refine @lossless_of_shifts _ _ _ 0 (castOperation source) hnarrower ?_ ⟨fun v hv => ?_⟩
      · simp [createRestoreExpression, hstats, createDefaultStatsAwareCast, hrestored, Except.map]
      · obtain ⟨w, hw, hcovered⟩ := propagate_covered hstats hv
        exact ⟨w, castOperation_ok hw, by omega, hcovered, castOperation_ok hw.symm⟩

/-! ## The offset -/

theorem getIntegralOffsetType_bounds {range : Int} (h : ubigint.Bounds range) :
    (IntegralType.mk false (getIntegralOffsetType range)).Bounds range := by
  obtain ⟨h0, h1⟩ : 0 ≤ range ∧ range < 2 ^ 64 := h
  unfold getIntegralOffsetType
  split
  · rename_i h
    exact ⟨h0, Int.lt_of_le_sub_one h⟩
  · split
    · rename_i h
      exact ⟨h0, Int.lt_of_le_sub_one h⟩
    · split
      · rename_i h
        exact ⟨h0, Int.lt_of_le_sub_one h⟩
      · exact ⟨h0, h1⟩

theorem IntegralType.Bounds.le_maximum {type : IntegralType} {v : Int} (h : type.Bounds v) :
    v ≤ intMaximum false type.width := by
  obtain ⟨signed, width⟩ := type
  cases signed <;> cases width <;>
    simp [Bounds, IntBounds, IntWidth.bytes, intMaximum] at h ⊢ <;> omega

/-- No type has a range that needs more bytes than the type. -/
theorem getIntegralOffsetType_bytes {type : IntegralType} {range : Int} (h : type.Bounds range) :
    (getIntegralOffsetType range).bytes ≤ type.width.bytes := by
  have hle := h.le_maximum
  generalize type.width = width at hle ⊢
  unfold getIntegralOffsetType
  cases width with
  | w8 => rw [if_pos hle]
  | w16 =>
      rw [if_pos hle]
      split <;> decide
  | w32 =>
      rw [if_pos hle]
      split
      · decide
      · split <;> decide
  | w64 | w128 =>
      split
      · decide
      · split
        · decide
        · split <;> decide

/-- What the statistics say of the offset of a column. -/
structure OffsetInfo {type : IntegralType} (stats : type.Stats) (info : OffsetCompressInfo type) :
    Prop where
  fits : (IntegralType.mk false info.offsetType).Bounds info.rangeValue
  bytes : info.offsetType.bytes ≤ type.width.bytes
  range : stats.hasNoNull = true → ∃ min max, stats.data.min = some min ∧
    stats.data.max = some max ∧ info.min = some min ∧ info.rangeValue = max.1 - min.1 ∧
    type.Bounds info.rangeValue ∧ ubigint.Bounds info.rangeValue

theorem getIntegralOffsetCompressInfo_some {type : IntegralType} {stats : type.Stats}
    {info : OffsetCompressInfo type} (h : getIntegralOffsetCompressInfo stats = some info) :
    OffsetInfo stats info := by
  unfold getIntegralOffsetCompressInfo at h
  split at h
  · rename_i hnull
    obtain rfl := Option.some.inj h
    refine ⟨zero_bounds _, ?_, fun hvalid => ?_⟩
    · show 1 ≤ type.width.bytes
      cases type.width <;> decide
    · rw [hvalid] at hnull
      cases hnull
  · split at h
    · rename_i min max hmin hmax
      split at h
      · cases h
      · rename_i range hrange
        obtain rfl := Option.some.inj h
        rw [defaultTryCastAs_eq_some] at hrange
        have hwide : ¬ range.1 = intMaximum false .w128 := by
          intro heq
          have := range.2.2
          rw [heq] at this
          exact absurd this (by decide)
        unfold getIntegralRangeValue at hrange
        split at hrange
        · exact absurd hrange hwide
        · split at hrange
          · rename_i hbounds
            rw [← hrange] at hbounds
            exact ⟨getIntegralOffsetType_bounds range.2, getIntegralOffsetType_bytes hbounds,
              fun _ => ⟨min, max, hmin, hmax, rfl, hrange, hbounds, range.2⟩⟩
          · exact absurd hrange hwide
    · cases h

/-- Neither the subtraction nor the addition overflows, in any of the types. -/
theorem integralCompress_sub {source target : IntegralType} {min v : source.Value}
    (hsource : source.Bounds (v.1 - min.1)) (htarget : target.Bounds (v.1 - min.1))
    (hlower : 0 ≤ v.1 - min.1 ∧ v.1 - min.1 < 2 ^ 64) :
    (integralCompress target min v).1 = v.1 - min.1 ∧
      integralDecompress min (integralCompress target min v) = v := by
  have hcompress : (integralCompress target min v).1 = v.1 - min.1 := by
    unfold integralCompress
    simp only [staticCast_of_bounds hsource, Int.emod_eq_of_lt hlower.1 hlower.2]
    split <;> exact staticCast_of_bounds htarget
  refine ⟨hcompress, Subtype.ext ?_⟩
  unfold integralDecompress
  rw [hcompress, staticCast_of_bounds hsource]
  have hsum : min.1 + (v.1 - min.1) = v.1 := by omega
  rw [hsum, staticCast_of_bounds v.2]

theorem createIntegralFunctionCompress_lossless {source : IntegralType} {stats : source.Stats}
    {info : OffsetCompressInfo source} (hinfo : OffsetInfo stats info)
    (hne : info.offsetType.bytes ≠ source.width.bytes) :
    ∃ compress, createIntegralFunctionCompress ⟨false, info.offsetType⟩ info stats = .ok compress ∧
      Lossless compress stats := by
  have hzero : defaultTryCastAs ⟨false, info.offsetType⟩ 0 = some ⟨0, zero_bounds _⟩ :=
    defaultTryCastAs_eq_some.mpr rfl
  have hrange : defaultTryCastAs ⟨false, info.offsetType⟩ info.rangeValue =
      some ⟨info.rangeValue, hinfo.fits⟩ := defaultTryCastAs_eq_some.mpr rfl
  unfold createIntegralFunctionCompress
  rw [hzero, hrange]
  refine ⟨_, rfl, ?_⟩
  refine @lossless_of_shifts _ _ _ (constantData info.min).1
    (fun w => getIntegralDecompress _ stats w) (Nat.lt_of_le_of_ne hinfo.bytes hne) rfl
    ⟨fun v hv => ?_⟩
  obtain ⟨min, max, hmin, hmax, hdata, hvalue, hbounds, hubigint⟩ := hinfo.range hv.valid
  obtain ⟨-, hlo, hhi⟩ := (covered_iff hmin hmax v).mp hv
  have hle : 0 ≤ v.1 - min.1 ∧ v.1 - min.1 ≤ info.rangeValue := by omega
  have hsub := @integralCompress_sub _ ⟨false, info.offsetType⟩ _ _
    ((zero_bounds source).between hbounds hle.1 hle.2)
    ((zero_bounds _).between hinfo.fits hle.1 hle.2)
    ⟨hle.1, Int.lt_of_le_of_lt hle.2 hubigint.2⟩
  refine ⟨_, rfl, ?_, ?_, ?_⟩
  · rw [hdata]
    exact hsub.1
  · refine (covered_iff rfl rfl _).mpr ⟨hv.valid, ?_, ?_⟩
    · rw [hdata]
      exact hsub.1 ▸ hle.1
    · rw [hdata]
      exact hsub.1 ▸ hle.2
  · simp only [getIntegralDecompress, hv.valid, hmin, hdata]
    exact congrArg Except.ok hsub.2

theorem getIntegralCompress_lossless {type : IntegralType} (stats : type.Stats) :
    ∃ result, getIntegralCompress stats = .ok result ∧
      ∀ compress, result = some compress → Lossless compress stats := by
  unfold getIntegralCompress
  split
  · exact ⟨none, rfl, fun _ h => nomatch h⟩
  · split
    · exact ⟨none, rfl, fun _ h => nomatch h⟩
    · rename_i info hinfo
      split
      · exact ⟨none, rfl, fun _ h => nomatch h⟩
      · rename_i hne
        obtain ⟨offset, hoffset, hlossless⟩ :=
          createIntegralFunctionCompress_lossless (getIntegralOffsetCompressInfo_some hinfo) hne
        have hfunction : ∀ compress, some offset = some compress → Lossless compress stats := by
          rintro compress ⟨⟩
          exact hlossless
        split
        · rw [hoffset]
          exact ⟨some offset, rfl, hfunction⟩
        · rename_i castType hcast
          obtain ⟨result, hresult, hcastLossless⟩ :=
            @createIntegralCastCompress_lossless _ castType stats
              (getIntegralCastType_some hcast)
          rw [hresult]
          cases result with
          | none =>
              simp only [hoffset]
              exact ⟨some offset, rfl, hfunction⟩
          | some compress => exact ⟨some compress, rfl, hcastLossless⟩

end MiniDuck
