import MiniDuck.NumericStats
import MiniDuck.PrefixBound
import MiniDuck.SwarWord
import MiniDuck.BitField

/-!
# Statistics of string columns

String bounds are cut to twelve bytes. A bound is exact, truncated, empty
(there is no value) or not known. `mergeStats` keeps of two upper bounds
of which one is a prefix of the other the shorter one if it is truncated:
it stands for larger strings that are not known.

The legacy format cuts the bounds to eight bytes, drops the zeros at
their ends and finds the kinds of the bounds again from the bytes and the
maximum length; `legacyGetMinMaxType` only calls bounds exact that some
value attains, because every bound is a prefix of a value
(`MinBound`, `MaxBound`). The current format packs the kinds, the
lengths of the bounds and the minimum length into one word.
-/

namespace MiniDuck

inductive StringStatsType
  | noStats
  | emptyStats
  | exactStats
  | truncatedStats
  deriving Repr, DecidableEq

def StringStatsType.isSet : StringStatsType → Bool
  | .exactStats | .truncatedStats => true
  | _ => false

structure StringStatsData where
  min : List UInt8
  max : List UInt8
  hasUnicode : Bool
  hasMaxStringLength : Bool
  maxStringLength : Nat
  hasMinStringLength : Bool
  minStringLength : Nat
  hasTotalStringLength : Bool
  totalStringLength : Nat
  minType : StringStatsType
  maxType : StringStatsType
  deriving Repr, DecidableEq

/-- `StatsWriter<string_t>`. The bounds are the twelve bytes at the start of a string. -/
structure StringStatsWriter where
  hasNull : Bool
  hasValid : Bool
  isSet : Bool
  min : List UInt8
  max : List UInt8
  minSize : Nat
  maxSize : Nat
  hasUnicode : Bool
  maxStringLength : Nat
  minStringLength : Nat
  totalStringLength : Nat
  deriving Repr, DecidableEq

abbrev StringValue : Type := { s : List UInt8 // s.length < 2 ^ 32 }

namespace StringStats

def currentMaxStringMinmaxSize : Nat := 12

def legacyMaxStringMinmaxSize : Nat := 8

def maximumMinStringLength : Nat := 2 ^ 21 - 1

/-- `NumericLimits<uint32_t>::Maximum`. -/
def uint32Maximum : Nat := 2 ^ 32 - 1

def createUnknown : StringStatsData where
  min := []
  max := []
  hasUnicode := true
  hasMaxStringLength := false
  maxStringLength := 0
  hasMinStringLength := false
  minStringLength := 0
  hasTotalStringLength := false
  totalStringLength := 0
  minType := .noStats
  maxType := .noStats

def createEmpty : StringStatsData where
  min := []
  max := []
  hasUnicode := false
  hasMaxStringLength := true
  maxStringLength := 0
  hasMinStringLength := true
  minStringLength := uint32Maximum
  hasTotalStringLength := true
  totalStringLength := 0
  minType := .emptyStats
  maxType := .emptyStats

def hasMinMax (data : StringStatsData) : Bool := data.minType.isSet && data.maxType.isSet

def minStringLength (data : StringStatsData) : Option Nat :=
  if data.hasMinStringLength ∧ data.minStringLength ≠ uint32Maximum then some data.minStringLength
  else none

/-! ## Writing values -/

def compareInlineBytes (a b : List UInt8) : Ordering :=
  let aPrefix := loadWord (a.take 4)
  let bPrefix := loadWord (b.take 4)
  if aPrefix ≠ bPrefix then if bswap 4 aPrefix < bswap 4 bPrefix then .lt else .gt
  else
    let aRest := loadWord (a.drop 4)
    let bRest := loadWord (b.drop 4)
    if aRest ≠ bRest then if bswap 8 aRest < bswap 8 bRest then .lt else .gt
    else .eq

def clear : StringStatsWriter where
  hasNull := false
  hasValid := false
  isSet := false
  min := []
  max := []
  minSize := 0
  maxSize := 0
  hasUnicode := false
  maxStringLength := 0
  minStringLength := maximumMinStringLength
  totalStringLength := 0

/-- The twelve bytes that can be read at the data pointer of a string. -/
def inlineBytes (value : List UInt8) : List UInt8 := padded 0 currentMaxStringMinmaxSize value

/-- The bounds that `StatsWriter::Update` keeps. -/
def updateMinMax (writer : StringStatsWriter) (data : List UInt8) (size : Nat) :
    StringStatsWriter :=
  if writer.isSet then
    let minCmp := compareInlineBytes data writer.min
    let maxCmp := compareInlineBytes data writer.max
    let writer := if minCmp = .lt ∨ minCmp = .eq ∧ size < writer.minSize then
      { writer with min := data, minSize := size } else writer
    if maxCmp = .gt ∨ maxCmp = .eq ∧ writer.maxSize < size then
      { writer with max := data, maxSize := size } else writer
  else { writer with min := data, max := data, minSize := size, maxSize := size, isSet := true }

/-- `StatsWriter::Update`, or `SetHasNull` for a NULL. The bytes of a VARCHAR are valid UTF-8, so it
has a character outside of ASCII if it has a byte outside of it. -/
def updateWriter (isVarchar : Bool) (writer : StringStatsWriter) :
    Option StringValue → StringStatsWriter
  | none => { writer with hasNull := true }
  | some value =>
      let size := value.1.length
      let writer := updateMinMax { writer with hasValid := true } (inlineBytes value.1) size
      { writer with
        maxStringLength := if writer.maxStringLength < size then size else writer.maxStringLength
        minStringLength := if size < writer.minStringLength then size else writer.minStringLength
        totalStringLength := (writer.totalStringLength + size) % 2 ^ 64
        hasUnicode := writer.hasUnicode || (isVarchar && value.1.any (128 ≤ ·)) }

/-! ## Merging -/

def newIsMoreExtreme (isMin : Bool) (target : List UInt8) (targetType : StringStatsType)
    (source : List UInt8) (sourceType : StringStatsType) : Bool :=
  let comparison := compareWords source target
  let size := Nat.min source.length target.length
  if !isMin ∧ source.take size = target.take size then
    if comparison = .lt then decide (sourceType = .truncatedStats)
    else decide (targetType ≠ .truncatedStats)
  else if isMin then decide (comparison = .lt)
  else decide (comparison = .gt)

/-- `MergeStats`: the bound and its kind. -/
def mergeStats (isMin : Bool) (target : List UInt8) (targetType : StringStatsType)
    (source : List UInt8) (sourceType : StringStatsType) : List UInt8 × StringStatsType :=
  if targetType = .noStats ∨ sourceType = .noStats then (target, .noStats)
  else if sourceType = .emptyStats then (target, targetType)
  else if targetType = .emptyStats then (source, sourceType)
  else
    if compareWords source target = .eq then
      (target, if targetType = .truncatedStats ∨ sourceType = .truncatedStats then .truncatedStats
        else targetType)
    else if newIsMoreExtreme isMin target targetType source sourceType then (source, sourceType)
    else (target, targetType)

def merge (mergeType : StatsMergeType) (data other : StringStatsData) : StringStatsData :=
  let min := mergeStats true data.min data.minType other.min other.minType
  let max := mergeStats false data.max data.maxType other.max other.maxType
  let hasTotal := match mergeType with
    | .expandBounds => false
    | .mergeStats => data.hasTotalStringLength && other.hasTotalStringLength
  { min := min.1
    minType := min.2
    max := max.1
    maxType := max.2
    hasUnicode := data.hasUnicode || other.hasUnicode
    hasMaxStringLength := data.hasMaxStringLength && other.hasMaxStringLength
    maxStringLength := Nat.max data.maxStringLength other.maxStringLength
    hasMinStringLength := data.hasMinStringLength && other.hasMinStringLength
    minStringLength := Nat.min data.minStringLength other.minStringLength
    hasTotalStringLength := hasTotal
    totalStringLength :=
      if hasTotal then (data.totalStringLength + other.totalStringLength) % 2 ^ 64
      else data.totalStringLength }

def readWriterStats (data : List UInt8) (size : Nat) : List UInt8 × StringStatsType :=
  if size ≤ currentMaxStringMinmaxSize then (data.take size, .exactStats)
  else (data.take currentMaxStringMinmaxSize, .truncatedStats)

def writerData (writer : StringStatsWriter) : StringStatsData :=
  let min := readWriterStats writer.min writer.minSize
  let max := readWriterStats writer.max writer.maxSize
  { min := min.1
    minType := min.2
    max := max.1
    maxType := max.2
    hasUnicode := writer.hasUnicode
    hasMaxStringLength := true
    maxStringLength := writer.maxStringLength
    hasMinStringLength := true
    minStringLength := writer.minStringLength
    hasTotalStringLength := true
    totalStringLength := writer.totalStringLength }

/-- `StatsWriter::Merge`. -/
def mergeWriter (writer : StringStatsWriter) (target : BaseStatistics StringStatsData) :
    BaseStatistics StringStatsData :=
  let target := target.mergeBase writer.hasNull writer.hasValid
  if writer.hasValid then { target with data := merge .mergeStats target.data (writerData writer) }
  else target

/-! ## The legacy format -/

def legacyConstructMinMax (input : List UInt8) (type : StringStatsType) (isMin : Bool) :
    List UInt8 :=
  match type with
  | .emptyStats => List.replicate legacyMaxStringMinmaxSize (if isMin then 0xFF else 0x00)
  | .noStats => List.replicate legacyMaxStringMinmaxSize (if isMin then 0x00 else 0xFF)
  | _ => padded 0 legacyMaxStringMinmaxSize input

def legacyReadMinMax (data : List UInt8) : List UInt8 := data.rdropWhile (· = 0)

def legacyAllCharsEqualTo (data : List UInt8) (comp : UInt8) : Bool := data.all (· = comp)

def legacyGetMinMaxType (min max : List UInt8) (hasMaxLength : Bool) (maxLength : Nat) :
    StringStatsType :=
  if max.headD 0 < min.headD 0 then .emptyStats
  else if legacyAllCharsEqualTo min 0x00 ∧ legacyAllCharsEqualTo max 0xFF then .noStats
  else if hasMaxLength ∧ maxLength ≤ legacyMaxStringMinmaxSize ∧
      (maxLength = 0 ∨ min.getD (maxLength - 1) 0 ≠ 0 ∧ max.getD (maxLength - 1) 0 ≠ 0) then
    .exactStats
  else .truncatedStats

/-! ## The packed field -/

namespace StringStatsField

def noUnicodePosition : Nat := 0

def minExactOrEmptyPosition : Nat := 1

def maxExactOrEmptyPosition : Nat := 2

def minLengthPosition : Nat := 3

def maxLengthPosition : Nat := 7

def lengthBits : Nat := 4

def minStringLengthPosition : Nat := 11

def minStringLengthBitSize : Nat := 21

def setHasUnicode (field : BitVec 32) (hasUnicode : Bool) : BitVec 32 :=
  BitField.setFlag field noUnicodePosition (!hasUnicode)

def getHasUnicode (field : BitVec 32) : Bool := !BitField.hasFlag field noUnicodePosition

def exactOrEmpty (type : StringStatsType) : Bool :=
  decide (type = .exactStats ∨ type = .emptyStats)

def setMinType (field : BitVec 32) (type : StringStatsType) : BitVec 32 :=
  BitField.setFlag field minExactOrEmptyPosition (exactOrEmpty type)

def setMaxType (field : BitVec 32) (type : StringStatsType) : BitVec 32 :=
  BitField.setFlag field maxExactOrEmptyPosition (exactOrEmpty type)

/-- The kind of a bound, from its flag and whether there are bounds. -/
def typeOfFlag (flag hasBound : Bool) : StringStatsType :=
  if flag then if hasBound then .exactStats else .emptyStats
  else if hasBound then .truncatedStats
  else .noStats

def getMinType (field : BitVec 32) (hasMin : Bool) : StringStatsType :=
  typeOfFlag (BitField.hasFlag field minExactOrEmptyPosition) hasMin

def getMaxType (field : BitVec 32) (hasMax : Bool) : StringStatsType :=
  typeOfFlag (BitField.hasFlag field maxExactOrEmptyPosition) hasMax

/-- `SetMinLength` and `SetMaxLength`, with the exception as `none`. -/
def setLength (field : BitVec 32) (pos length : Nat) : Option (BitVec 32) :=
  if length > 12 then none else some (BitField.set field pos lengthBits (BitVec.ofNat 32 length))

/-- `GetMinLength` and `GetMaxLength`, with the exception as `none`. -/
def getLength (field : BitVec 32) (pos : Nat) : Option Nat :=
  let result := (BitField.get field pos lengthBits).toNat
  if result > 12 then none else some result

def setMinStringLength (field : BitVec 32) (minStrLength : Nat) : BitVec 32 :=
  let stored := if minStrLength ≥ maximumMinStringLength then maximumMinStringLength
    else minStrLength + 1
  BitField.set field minStringLengthPosition minStringLengthBitSize (BitVec.ofNat 32 stored)

/-- `GetMinStringLength`, `none` where `HasMinStringLength` is false. -/
def getMinStringLength (field : BitVec 32) : Option Nat :=
  let minStrLen := (BitField.get field minStringLengthPosition minStringLengthBitSize).toNat
  if minStrLen = 0 then none
  else if minStrLen = maximumMinStringLength then some uint32Maximum
  else some (minStrLen - 1)

end StringStatsField

/-! ## Writing and reading statistics -/

inductive StoredStringStats
  | legacy (min max : List UInt8) (hasUnicode hasMaxStringLength : Bool) (maxStringLength : Nat)
  | current (maxStringLength : Option Nat) (minMax : Option (List UInt8)) (packedField : BitVec 32)
      (totalStringLength : Option Nat)

def truncateStatsIfRequired (length : Nat) (type : StringStatsType) : Nat × StringStatsType :=
  if length > currentMaxStringMinmaxSize then (currentMaxStringMinmaxSize, .truncatedStats)
  else (length, type)

open StringStatsField

/-- The bounds in one blob, and the field with their lengths and kinds. -/
def serializeMinMax (data : StringStatsData) (field : BitVec 32) :
    Option (Option (List UInt8) × BitVec 32) :=
  if hasMinMax data then do
    let min := truncateStatsIfRequired data.min.length data.minType
    let max := truncateStatsIfRequired data.max.length data.maxType
    let field ← setLength field minLengthPosition min.1
    let field ← setLength field maxLengthPosition max.1
    let blob := padded 0 currentMaxStringMinmaxSize data.min ++
      padded 0 currentMaxStringMinmaxSize data.max
    pure (some blob, setMaxType (setMinType field min.2) max.2)
  else pure (none, setMaxType (setMinType field data.minType) data.maxType)

def serialize (legacy : Bool) (data : StringStatsData) : Option StoredStringStats :=
  if legacy then
    some (.legacy (legacyConstructMinMax data.min data.minType true)
      (legacyConstructMinMax data.max data.maxType false) data.hasUnicode data.hasMaxStringLength
      data.maxStringLength)
  else do
    let (minMax, field) ← serializeMinMax data (setHasUnicode 0#32 data.hasUnicode)
    let field := if data.hasMinStringLength then setMinStringLength field data.minStringLength
      else field
    pure (.current (if data.hasMaxStringLength then some data.maxStringLength else none) minMax
      field (if data.hasTotalStringLength then some data.totalStringLength else none))

/-- `StringStats::Deserialize`, into statistics that are zero. -/
def deserialize : StoredStringStats → Option StringStatsData
  | .legacy min max hasUnicode hasMaxStringLength maxStringLength =>
      let type := legacyGetMinMaxType min max hasMaxStringLength maxStringLength
      some {
        min := legacyReadMinMax min
        max := legacyReadMinMax max
        hasUnicode := hasUnicode
        hasMaxStringLength := hasMaxStringLength
        maxStringLength := maxStringLength
        hasMinStringLength := false
        minStringLength := 0
        hasTotalStringLength := false
        totalStringLength := 0
        minType := type
        maxType := type }
  | .current maxStringLength minMax field totalStringLength => do
      let maxStringLength := maxStringLength.getD uint32Maximum
      let hasMaxStringLength : Bool := decide (maxStringLength ≠ uint32Maximum)
      let (min, max) ← match minMax with
        | none => some ([], [])
        | some blob => do
            let minLength ← getLength field minLengthPosition
            let maxLength ← getLength field maxLengthPosition
            pure (blob.take minLength, (blob.drop currentMaxStringMinmaxSize).take maxLength)
      pure {
        min := min
        max := max
        hasUnicode := getHasUnicode field
        hasMaxStringLength := hasMaxStringLength
        maxStringLength := if hasMaxStringLength then maxStringLength else 0
        hasMinStringLength := (getMinStringLength field).isSome
        minStringLength := (getMinStringLength field).getD 0
        hasTotalStringLength := totalStringLength.isSome
        totalStringLength := totalStringLength.getD 0
        minType := getMinType field minMax.isSome
        maxType := getMaxType field minMax.isSome }

/-- The statistics at the end of a history, `none` if a step throws. -/
def run (isVarchar : Bool) : StatsFeed StringValue → Option (BaseStatistics StringStatsData)
  | .empty => some (.empty createEmpty)
  | .unknown _ => some (.unknown createUnknown)
  | .write target rows => do
      let target ← run isVarchar target
      pure (mergeWriter (rows.foldl (updateWriter isVarchar) clear) target)
  | .merge mergeType target other => do
      let target ← run isVarchar target
      let other ← run isVarchar other
      pure (target.merge (merge mergeType) other)
  | .copy source => run isVarchar source
  | .store legacy source => do
      let source ← run isVarchar source
      let stored ← serialize legacy source.data
      let data ← deserialize stored
      pure { source with data := data }

/-! ## The zone map -/

def compareStringStats (input stats : List UInt8) (type : StringStatsType) : Ordering :=
  if type = .truncatedStats ∧ stats.length < input.length then
    compareWords (input.take stats.length) stats
  else compareWords input stats

/-- `StringStats::CheckZonemap` with bounds. -/
def checkZonemapBounds (min : List UInt8) (minType : StringStatsType) (max : List UInt8)
    (maxType : StringStatsType) (comparison : ComparisonType) (constant : List UInt8) :
    FilterPropagateResult :=
  let minComp := compareStringStats constant min minType
  let maxComp := compareStringStats constant max maxType
  let exact : Bool := decide (minComp = .eq ∧ maxComp = .eq ∧ minType = .exactStats ∧
    maxType = .exactStats)
  match comparison with
  | .equal | .notDistinctFrom =>
      if exact then .filterAlwaysTrue
      else if minComp ≠ .lt ∧ maxComp ≠ .gt then .noPruningPossible
      else .filterAlwaysFalse
  | .notEqual | .distinctFrom =>
      if minComp = .lt ∨ maxComp = .gt then .filterAlwaysTrue
      else if exact then .filterAlwaysFalse
      else .noPruningPossible
  | .greaterThan =>
      if maxComp = .lt ∨ maxComp = .eq ∧ maxType ≠ .exactStats then .noPruningPossible
      else .filterAlwaysFalse
  | .greaterThanOrEqualTo => if maxComp ≠ .gt then .noPruningPossible else .filterAlwaysFalse
  | .lessThan =>
      if minComp = .gt ∨ minComp = .eq ∧ minType ≠ .exactStats then .noPruningPossible
      else .filterAlwaysFalse
  | .lessThanOrEqualTo => if minComp ≠ .lt then .noPruningPossible else .filterAlwaysFalse

/-- `StringStats::CheckZonemap` for one constant. All strings are longer than a truncated minimum
that has the length of the constant: then the minimum with a zero behind it is a bound. -/
def checkZonemapConstant (data : StringStatsData) (comparison : ComparisonType)
    (constant : List UInt8) : FilterPropagateResult :=
  if hasMinMax data then
    if data.minType = .truncatedStats ∧ constant.length = data.min.length ∧
        (minStringLength data).any (constant.length < ·) ∧
        compareStringStats constant data.min data.minType = .eq then
      checkZonemapBounds (data.min ++ [0]) .exactStats data.max data.maxType comparison constant
    else checkZonemapBounds data.min data.minType data.max data.maxType comparison constant
  else .noPruningPossible

def checkZonemap (data : StringStatsData) (comparison : ComparisonType)
    (constants : List (List UInt8)) : FilterPropagateResult :=
  checkConstants (checkZonemapConstant data comparison) constants

end StringStats

end MiniDuck
