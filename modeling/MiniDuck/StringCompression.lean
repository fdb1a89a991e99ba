import MiniDuck.IntegralCompression
import MiniDuck.StringBounds

/-!
# Compressed materialization of strings

A short string is materialized as an unsigned integer: its bytes from the
most significant one on, zeros, and its length in the least significant
byte. Depending on its length and on that of the integer the bytes are
taken from the inline area of a `string_t` or from behind its pointer.
`stringCompress_eq` says that all layouts pack the string the same way,
`compareWords_packed` that packed strings compare like the strings:
one that ends early is padded with the smallest byte, and the length
decides between the string and its padding.

A column of strings of at most one byte is materialized in a single byte,
if no string starts with the largest one; UTF-8 never uses it
(`utf8_ne_maximum`).
-/

namespace MiniDuck

/-! ## Strings in memory -/

def inlineLength : Nat := 12

def prefixLength : Nat := 4

/-- `string_t`: the length, the twelve bytes after it, and what the pointer among them points to. -/
structure StringT where
  size : Nat
  inlined : List UInt8
  pointee : List UInt8
  deriving Repr, DecidableEq

namespace StringT

/-- The string of some bytes; a long one is stored at `pointer`. -/
def ofBytes (pointer s : List UInt8) : StringT :=
  if s.length ≤ inlineLength then ⟨s.length, s ++ List.replicate (inlineLength - s.length) 0, []⟩
  else ⟨s.length, s.take prefixLength ++ pointer, s⟩

def isInlined (s : StringT) : Bool := s.size ≤ inlineLength

def getString (s : StringT) : List UInt8 :=
  (if s.isInlined then s.inlined else s.pointee).take s.size

end StringT

/-! ## Compression -/

/-- `StringCompressInternal`, into `n` bytes. -/
def stringCompressInternal (n : Nat) (input : StringT) : Nat :=
  let result :=
    if n ≤ inlineLength then (input.inlined.take n).reverse
    else if input.isInlined then List.replicate (n - inlineLength) 0 ++ input.inlined.reverse
    else
      let size := min n input.size
      List.replicate (n - size) 0 ++ (input.pointee.take size).reverse
  loadWord (result.set 0 (UInt8.ofNat input.size))

def miniStringCompress (input : StringT) : Nat :=
  (input.size + (input.inlined.headD 0).toNat) % 2 ^ 8

def stringCompress (width : IntWidth) (input : StringT) : Nat :=
  match width with
  | .w8 => miniStringCompress input
  | width => stringCompressInternal width.bytes input

/-- `StringDecompress` of `n` bytes; a long string is allocated at `pointer`. -/
def stringDecompressInternal (n : Nat) (pointer : List UInt8) (input : Nat) : StringT :=
  let bytes := storeBytes n input
  let size := (bytes.headD 0).toNat
  if n ≤ inlineLength then
    ⟨size, bytes.reverse.take (n - 1) ++ List.replicate (inlineLength - n + 1) 0, []⟩
  else if size ≤ inlineLength then ⟨size, (bytes.drop (n - inlineLength)).reverse, []⟩
  else ⟨size, bytes.reverse.take prefixLength ++ pointer, bytes.reverse⟩

def miniStringDecompress (input : Nat) : StringT :=
  if input = 0 then ⟨0, List.replicate inlineLength 0, []⟩
  else ⟨1, UInt8.ofNat (input - 1) :: List.replicate (inlineLength - 1) 0, []⟩

def stringDecompress (width : IntWidth) (pointer : List UInt8) (input : Nat) : StringT :=
  match width with
  | .w8 => miniStringDecompress input
  | width => stringDecompressInternal width.bytes pointer input

/-! ## Choice of the type -/

/-- `CMUtils::StringTypes`; all are unsigned. -/
def stringTypes : List IntWidth := [.w8, .w16, .w32, .w64, .w128]

/-- `CMHelper::GetStringCompressInfo`: the type and the maximum length. -/
def getStringCompressInfo (stats : BaseStatistics StringStatsData) : Option (IntWidth × Nat) :=
  if !stats.hasNoNull then some (.w8, 0)
  else if !stats.data.hasMaxStringLength then none
  else
    match stringTypes.find? fun type => stats.data.maxStringLength < type.bytes with
    | none => none
    | some type => some (type, stats.data.maxStringLength)

/-- A compressed column of strings: the type, and the statistics of the integers. -/
structure StringCompressExpression where
  target : IntWidth
  stats : IntegralType.Stats ⟨false, target⟩

/-- `BaseStatistics::CreateEmpty` and `CopyBase`, with bounds. -/
def copyBase {δ ε : Type} (stats : BaseStatistics δ) (data : ε) : BaseStatistics ε :=
  ⟨stats.hasNull, stats.hasNoNull, stats.distinctCount, data⟩

/-- The number of the first byte of a bound, if there is one. -/
def firstNumeric (maxStringLength : Nat) (bound : List UInt8) : Nat :=
  if maxStringLength ≠ 0 then (bound.headD 0).toNat else 0

/-- `CMHelper::CreateStringCompressStats`, which may still choose the single byte. -/
def createStringCompressStats (stats : BaseStatistics StringStatsData) (target : IntWidth)
    (maxStringLength : Nat) : StringCompressExpression :=
  if target ≠ .w16 ∨ !StringStats.hasMinMax stats.data then
    ⟨target, copyBase stats NumericStats.createEmpty⟩
  else
    let minNumeric := firstNumeric maxStringLength stats.data.min
    let maxNumeric := firstNumeric maxStringLength stats.data.max
    let bounds (type : IntegralType) : NumericStatsData type.Value :=
      ⟨some (type.staticCast minNumeric), some (type.staticCast (maxNumeric + 1))⟩
    if maxNumeric < 2 ^ 8 - 1 then ⟨.w8, copyBase stats (bounds ⟨false, .w8⟩)⟩
    else ⟨target, copyBase stats (bounds ⟨false, target⟩)⟩

def getStringCompress (stats : BaseStatistics StringStatsData) : Option StringCompressExpression :=
  (getStringCompressInfo stats).map fun info => createStringCompressStats stats info.1 info.2

/-! ## Packed strings -/

/-- The bytes of a compressed string, from the most significant one on. -/
def packed (n : Nat) (s : List UInt8) : List UInt8 :=
  s ++ List.replicate (n - 1 - s.length) 0 ++ [UInt8.ofNat s.length]

variable {s : List UInt8}

theorem length_packed {n : Nat} (h : s.length < n) : (packed n s).length = n := by
  simp [packed]
  omega

theorem set_reverse {α : Type} (l : List α) (a b : α) :
    (l ++ [a]).reverse.set 0 b = (l ++ [b]).reverse := by
  simp

/-- A padded string of which the last byte becomes the length. -/
theorem set_padded {n : Nat} (h : s.length < n) :
    (s ++ List.replicate (n - s.length) 0).reverse.set 0 (UInt8.ofNat s.length) =
      (packed n s).reverse := by
  have hsplit : n - s.length = n - 1 - s.length + 1 := by omega
  rw [hsplit, List.replicate_succ', ← List.append_assoc, set_reverse, packed]

variable {width : IntWidth}

theorem stringCompress_eq {width : IntWidth} (hwidth : width ≠ .w8) (pointer : List UInt8)
    {s : List UInt8} (h : s.length < width.bytes) :
    stringCompress width (.ofBytes pointer s) = loadWord (packed width.bytes s).reverse := by
  have hinternal : stringCompress width (.ofBytes pointer s) =
      stringCompressInternal width.bytes (.ofBytes pointer s) := by
    cases width with
    | w8 => exact absurd rfl hwidth
    | w16 | w32 | w64 | w128 => rfl
  have hbytes : width.bytes ≤ 16 := by cases width <;> decide
  rw [hinternal, ← set_padded h]
  generalize width.bytes = n at h hbytes ⊢
  unfold stringCompressInternal StringT.ofBytes StringT.isInlined
  by_cases hinline : s.length ≤ inlineLength
  · simp only [hinline, if_true, decide_true]
    split
    · -- the inline area, cut to the bytes of the result
      rename_i hn
      have htake : (s ++ List.replicate (inlineLength - s.length) (0 : UInt8)).take n =
          s ++ List.replicate (n - s.length) 0 := by
        rw [List.take_append, List.take_of_length_le h.le, List.take_replicate]
        congr 2
        omega
      rw [htake]
    · -- the inline area, padded to the bytes of the result
      rename_i hn
      have hpad : List.replicate (n - inlineLength) (0 : UInt8) ++
          (s ++ List.replicate (inlineLength - s.length) 0).reverse =
          (s ++ List.replicate (n - s.length) 0).reverse := by
        have hsplit : n - s.length = (inlineLength - s.length) + (n - inlineLength) := by omega
        rw [hsplit, ← List.replicate_append_replicate]
        simp only [List.reverse_append, List.reverse_replicate, List.append_assoc]
      rw [hpad]
  · have hn : ¬ n ≤ inlineLength := by omega
    simp only [hinline, hn, if_false, decide_false, Bool.false_eq_true]
    rw [Nat.min_eq_right h.le, List.take_of_length_le (Nat.le_refl _)]
    simp

theorem compareWords_packed {n : Nat} (hn : n ≤ 2 ^ 8) {t : List UInt8} (hs : s.length < n)
    (ht : t.length < n) : compareWords (packed n s) (packed n t) = compareWords s t := by
  have hlen : (s ++ List.replicate (n - 1 - s.length) (0 : UInt8)).length =
      (t ++ List.replicate (n - 1 - t.length) (0 : UInt8)).length := by
    simp only [List.length_append, List.length_replicate]
    omega
  have hsize : compareWords [UInt8.ofNat s.length] [UInt8.ofNat t.length] =
      compare s.length t.length := by
    rw [compareWords_cons, compareWords_nil_nil, Ordering.then_eq, compare_byte,
      UInt8.toNat_ofNat', UInt8.toNat_ofNat', Nat.mod_eq_of_lt (by omega),
      Nat.mod_eq_of_lt (by omega)]
  rw [packed, packed, compareWords_append hlen, hsize]
  exact compareWords_padded StringStats.compare_zero (by omega) (by omega)

theorem stringCompress_lt {width : IntWidth} (hwidth : width ≠ .w8) (pointer : List UInt8)
    {s : List UInt8} (h : s.length < width.bytes) :
    stringCompress width (.ofBytes pointer s) < 2 ^ (8 * width.bytes) := by
  rw [stringCompress_eq hwidth pointer h, Nat.pow_mul]
  refine Nat.lt_of_lt_of_eq (loadWord_lt _) ?_
  rw [List.length_reverse, length_packed h]

theorem stringDecompress_packed (hwidth : width ≠ .w8) (pointer : List UInt8)
    (h : s.length < width.bytes) :
    (stringDecompress width pointer (loadWord (packed width.bytes s).reverse)).getString = s := by
  have hinternal (input : Nat) : stringDecompress width pointer input =
      stringDecompressInternal width.bytes pointer input := by
    cases width with
    | w8 => exact absurd rfl hwidth
    | w16 | w32 | w64 | w128 => rfl
  have hbytes : width.bytes ≤ 16 := by cases width <;> decide
  rw [hinternal]
  generalize width.bytes = n at h hbytes ⊢
  have hload : storeBytes n (loadWord (packed n s).reverse) = (packed n s).reverse := by
    have := storeBytes_loadWord (packed n s).reverse
    rwa [List.length_reverse, length_packed h] at this
  have hsize : ((packed n s).reverse.headD 0).toNat = s.length := by
    simp only [packed, List.reverse_append, List.reverse_singleton, List.singleton_append,
      List.headD_cons, UInt8.toNat_ofNat']
    exact Nat.mod_eq_of_lt (by omega)
  have htake {rest : List UInt8} : (s ++ rest).take s.length = s := by simp
  unfold stringDecompressInternal
  simp only [hload, hsize, List.reverse_reverse]
  split
  · rename_i hn
    have hinline : s.length ≤ inlineLength := by omega
    have hcut : (packed n s).take (n - 1) = s ++ List.replicate (n - 1 - s.length) 0 := by
      rw [packed, List.take_append_of_le_length, List.take_of_length_le]
      · simp only [List.length_append, List.length_replicate]
        omega
      · simp only [List.length_append, List.length_replicate]
        omega
    simp only [StringT.getString, StringT.isInlined, hinline, decide_true, if_true, hcut]
    rw [List.append_assoc, htake]
  · split
    · rename_i hn hinline
      have hcut : ((packed n s).reverse.drop (n - inlineLength)).reverse =
          s ++ List.replicate (inlineLength - s.length) 0 := by
        rw [List.drop_reverse, List.reverse_reverse, length_packed h, packed,
          List.take_append_of_le_length, List.take_append, List.take_of_length_le,
          List.take_replicate]
        · congr 2
          omega
        · omega
        · simp only [List.length_append, List.length_replicate]
          omega
      simp only [StringT.getString, StringT.isInlined, hinline, decide_true, if_true, hcut]
      rw [htake]
    · rename_i hn hinline
      simp only [StringT.getString, StringT.isInlined, hinline, decide_false, Bool.false_eq_true,
        if_false, packed]
      rw [List.append_assoc, htake]

/-! ## The single byte -/

/-- The compressed form of a string of at most one byte. -/
theorem miniStringCompress_eq (pointer : List UInt8) (h : s.length ≤ 1) (hs : 0xFF ∉ s) :
    miniStringCompress (.ofBytes pointer s) = s.length + (s.headD 0).toNat ∧
      s.length + (s.headD 0).toNat < 2 ^ 8 := by
  match s, h with
  | [], _ => exact ⟨rfl, by decide⟩
  | [c], _ =>
      have hc : c.toNat ≠ 255 := fun h => hs (by simp [← UInt8.toNat_inj, h])
      have hlt : 1 + c.toNat < 2 ^ 8 := by
        have := c.toNat_lt
        omega
      refine ⟨?_, hlt⟩
      show (1 + c.toNat) % 2 ^ 8 = 1 + c.toNat
      exact Nat.mod_eq_of_lt hlt

theorem miniStringDecompress_eq (h : s.length ≤ 1) :
    (miniStringDecompress (s.length + (s.headD 0).toNat)).getString = s := by
  match s, h with
  | [], _ => rfl
  | [c], _ =>
      have hne : [c].length + ([c].headD 0).toNat ≠ 0 := by simp
      rw [miniStringDecompress, if_neg hne]
      simp [StringT.getString, StringT.isInlined, inlineLength]

theorem compare_mini : {s t : List UInt8} → s.length ≤ 1 → t.length ≤ 1 →
    compare (s.length + (s.headD 0).toNat) (t.length + (t.headD 0).toNat) = compareWords s t
  | [], [], _, _ => rfl
  | [], [c], _, _ => by
      rw [compareWords_nil_cons]
      exact Nat.compare_eq_lt.mpr (by simp)
  | [c], [], _, _ => by
      rw [compareWords_cons_nil]
      exact Nat.compare_eq_gt.mpr (by simp)
  | [c], [d], _, _ => by
      rw [compareWords_cons, compareWords_nil_nil, Ordering.then_eq, compare_byte]
      exact compare_congr (by simp) (by simp)

/-! ## Compression of columns -/

structure CoveredString (stats : BaseStatistics StringStatsData) (s : List UInt8) : Prop where
  valid : stats.hasNoNull = true
  length : stats.data.hasMaxStringLength = true → s.length ≤ stats.data.maxStringLength

/-- Strings that need no more than the chosen type: a string is shorter than the type, or of at most
one byte in the single byte. -/
def Fits (width : IntWidth) (s : List UInt8) : Prop :=
  if width = .w8 then s.length ≤ 1 else s.length < width.bytes

theorem getStringCompressInfo_fits {stats : BaseStatistics StringStatsData} {target : IntWidth}
    {maxStringLength : Nat} (h : getStringCompressInfo stats = some (target, maxStringLength))
    (hs : CoveredString stats s) : s.length < target.bytes := by
  unfold getStringCompressInfo at h
  rw [hs.valid, Bool.not_true, if_neg Bool.false_ne_true] at h
  split at h
  · cases h
  · rename_i hmax
    have hlength := hs.length (by simpa using hmax)
    split at h
    · cases h
    · rename_i type htype
      obtain ⟨rfl, rfl⟩ := Prod.ext_iff.mp (Option.some.inj h)
      have hlt := List.find?_some htype
      exact Nat.lt_of_le_of_lt hlength (by simpa using hlt)

/-- The change to the single byte is made for strings of at most one byte. -/
theorem createStringCompressStats_fits (stats : BaseStatistics StringStatsData) {target : IntWidth}
    (maxStringLength : Nat) (h : s.length < target.bytes) :
    Fits (createStringCompressStats stats target maxStringLength).target s := by
  have hfits : Fits target s := by
    unfold Fits
    split
    · rename_i hw
      rw [hw] at h
      exact h.le
    · exact h
  unfold createStringCompressStats
  split
  · exact hfits
  · rename_i hsmall
    have htarget : target = .w16 := by
      by_contra hne
      exact hsmall (Or.inl hne)
    dsimp only
    split
    · rw [htarget] at h
      exact Nat.le_of_lt_succ h
    · exact hfits

/-- Compressed strings fit the type, are restored, and compare like the strings, wherever they
are stored. -/
structure LosslessStrings (width : IntWidth) (s t : List UInt8) : Prop where
  bounds : ∀ p, stringCompress width (.ofBytes p s) < 2 ^ (8 * width.bytes)
  restores : ∀ p q, (stringDecompress width q (stringCompress width (.ofBytes p s))).getString = s
  ordered : ∀ p q, compare (stringCompress width (.ofBytes p s))
    (stringCompress width (.ofBytes q t)) = compareWords s t

theorem lossless_of_fits {t : List UInt8} (hs : Fits width s) (ht : Fits width t) (hs' : 0xFF ∉ s)
    (ht' : 0xFF ∉ t) : LosslessStrings width s t := by
  unfold Fits at hs ht
  rcases eq_or_ne width .w8 with rfl | hwidth
  · rw [if_pos rfl] at hs ht
    have hcompress (p : List UInt8) := miniStringCompress_eq p hs hs'
    have hcompress' (p : List UInt8) := miniStringCompress_eq p ht ht'
    refine ⟨fun p => ?_, fun p q => ?_, fun p q => ?_⟩
    · exact Nat.lt_of_le_of_lt (hcompress p).1.le (hcompress p).2
    · show (miniStringDecompress (miniStringCompress _)).getString = s
      rw [(hcompress p).1, miniStringDecompress_eq hs]
    · show compare (miniStringCompress _) (miniStringCompress _) = _
      rw [(hcompress p).1, (hcompress' q).1, compare_mini hs ht]
  · rw [if_neg hwidth] at hs ht
    have hbytes : width.bytes ≤ 2 ^ 8 := by cases width <;> decide
    refine ⟨fun p => stringCompress_lt hwidth p hs, fun p q => ?_, fun p q => ?_⟩
    · rw [stringCompress_eq hwidth p hs, stringDecompress_packed hwidth q hs]
    · have hlen : (packed width.bytes s).length = (packed width.bytes t).length := by
        rw [length_packed hs, length_packed ht]
      rw [stringCompress_eq hwidth p hs, stringCompress_eq hwidth q ht,
        ← compare_loadWord_reverse hlen, compareWords_packed hbytes hs ht]

/-- What the statistics of a column of strings choose is lossless. -/
theorem getStringCompress_lossless {stats : BaseStatistics StringStatsData}
    {compress : StringCompressExpression} (h : getStringCompress stats = some compress)
    {t : List UInt8} (hs : CoveredString stats s) (ht : CoveredString stats t) (hs' : 0xFF ∉ s)
    (ht' : 0xFF ∉ t) : LosslessStrings compress.target s t := by
  obtain ⟨⟨target, maxStringLength⟩, hinfo, rfl⟩ := Option.map_eq_some_iff.mp h
  exact lossless_of_fits
    (createStringCompressStats_fits stats maxStringLength (getStringCompressInfo_fits hinfo hs))
    (createStringCompressStats_fits stats maxStringLength (getStringCompressInfo_fits hinfo ht))
    hs' ht'

/-- Compressed materialization is lossless and keeps the order: of all integers between bounds that
the statistics know, and of all strings up to the length that they know, of which UTF-8 only uses
bytes below the largest one (`utf8_ne_maximum`). -/
theorem compressed_materialization :
    (∀ {type : IntegralType} (stats : type.Stats),
      ∃ result, getIntegralCompress stats = .ok result ∧
        ∀ compress, result = some compress → Lossless compress stats) ∧
    (∀ {stats : BaseStatistics StringStatsData} {compress : StringCompressExpression},
      getStringCompress stats = some compress →
      ∀ s t, CoveredString stats s → CoveredString stats t → 0xFF ∉ s → 0xFF ∉ t →
        LosslessStrings compress.target s t) :=
  ⟨getIntegralCompress_lossless, fun h _ _ hs ht hs' ht' =>
    getStringCompress_lossless h hs ht hs' ht'⟩

/-- Integers from -5 to 250 in a byte, and strings of at most three bytes in four. -/
theorem compressed_materialization_byte :
    let stats : IntegralType.Stats ⟨true, .w32⟩ :=
      ⟨false, true, 0, ⟨some ⟨-5, by decide⟩, some ⟨250, by decide⟩⟩⟩
    let strings : BaseStatistics StringStatsData :=
      ⟨false, true, 0, { StringStats.createUnknown with
        hasMaxStringLength := true
        maxStringLength := 3 }⟩
    (∃ compress, getIntegralCompress stats = .ok (some compress) ∧
      compress.target = ⟨false, .w8⟩ ∧ Lossless compress stats) ∧
    (∃ compress, getStringCompress strings = some compress ∧
      LosslessStrings compress.target [0x61] [0x61, 0]) := by
  intro stats strings
  refine ⟨?_, ?_⟩
  · obtain ⟨result, hresult, hlossless⟩ := compressed_materialization.1 stats
    have htarget : (getIntegralCompress stats).toOption.join.map (·.target) =
        some ⟨false, .w8⟩ := by decide
    rw [hresult] at htarget
    obtain ⟨compress, rfl, hcompress⟩ := Option.map_eq_some_iff.mp htarget
    exact ⟨compress, hresult, hcompress, hlossless compress rfl⟩
  · exact ⟨_, rfl, compressed_materialization.2 (@rfl _ (getStringCompress strings)) _ _
      ⟨rfl, fun _ => by decide⟩ ⟨rfl, fun _ => by decide⟩ (by decide) (by decide)⟩

end MiniDuck
