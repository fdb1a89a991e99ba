import MiniDuck.RadixDecode

/-!
# Keys of an ART index

An index key is the concatenation of the keys of its columns: integers
big-endian with the sign bit flipped, strings with the bytes 0 and 1 escaped
and a zero behind them. `GenerateKeys` builds the keys of a chunk column by
column and empties a key as soon as a column is NULL.

The key of a row without NULLs is an `OrderCode` for the lexicographic order
of its columns (`keyOfValues_code`), and `generateKeys_eq` says that the
column-wise loops build this key.
-/

namespace MiniDuck

/-! ## Types and keys -/

/-- The column types of an index other than the floating point types. -/
inductive ArtType
  | bool
  | integer (signed : Bool) (width : IntWidth)
  | string
  deriving DecidableEq

def ArtType.Payload : ArtType → Type
  | .bool => Bool
  | .integer signed width => IntValue signed width
  | .string => List UInt8

/-- The bytes of an `ARTKey`. -/
abbrev ArtKey : Type := List UInt8

namespace ArtKey

def escapeCount (value : List UInt8) : Nat :=
  value.foldl (fun count b => if b ≤ 1 then count + 1 else count) 0

def escapeString (value : List UInt8) : ArtKey :=
  value.foldl (fun key b => (if b ≤ 1 then key ++ [1] else key) ++ [b]) []

/-- `CreateARTKey` of a string. -/
def createStringKey (value : List UInt8) : ArtKey := escapeString value ++ [0]

def createArtKey : (t : ArtType) → t.Payload → ArtKey
  | .bool, v => [bif v then 1 else 0]
  | .integer signed width, v => encodeInteger signed width v.1
  | .string, s => createStringKey s

/-- `ARTKey::operator>`. -/
def greater : ArtKey → ArtKey → Bool
  | a :: x, b :: y => if a > b then true else if a < b then false else greater x y
  | x, y => decide (x.length > y.length)

/-- `ARTKey::operator>=`. -/
def greaterEqual : ArtKey → ArtKey → Bool
  | a :: x, b :: y => if a > b then true else if a < b then false else greaterEqual x y
  | x, y => decide (x.length ≥ y.length)

/-- The loop of `ARTKey::operator==`. -/
def sameBytes : ArtKey → ArtKey → Bool
  | a :: x, b :: y => if a ≠ b then false else sameBytes x y
  | _, _ => true

/-- `ARTKey::operator==`. -/
def equal (x y : ArtKey) : Bool := if x.length ≠ y.length then false else sameBytes x y

def getRowId (key : ArtKey) : Int := decodeInteger true .w64 key

/-! ### The comparison operators -/

theorem byte_cases (a b : UInt8) :
    (a < b ∧ compare a b = .lt) ∨ a = b ∨ (b < a ∧ ¬a < b ∧ compare a b = .gt) := by
  rw [UInt8.lt_iff_toNat_lt, UInt8.lt_iff_toNat_lt, compare_byte]
  rcases lt_trichotomy a.toNat b.toNat with h | h | h
  · exact Or.inl ⟨h, compare_lt_iff_lt.mpr h⟩
  · exact Or.inr (Or.inl (UInt8.toNat_inj.mp h))
  · exact Or.inr (Or.inr ⟨h, by omega, compare_gt_iff_gt.mpr h⟩)

theorem greater_iff (x y : ArtKey) : greater x y = true ↔ compareWords x y = .gt := by
  induction x generalizing y with
  | nil => cases y <;> simp [greater]
  | cons a x ih =>
      cases y with
      | nil => simp [greater]
      | cons b y =>
          rw [greater, compareWords_cons]
          rcases byte_cases a b with ⟨h, hc⟩ | rfl | ⟨h, hn, hc⟩
          · have hn : ¬b < a := by
              rw [UInt8.lt_iff_toNat_lt] at h ⊢
              omega
            simp [h, hn, hc]
          · simpa using ih y
          · simp [h, hc]

theorem greaterEqual_iff (x y : ArtKey) :
    greaterEqual x y = true ↔ compareWords x y ≠ .lt := by
  induction x generalizing y with
  | nil => cases y <;> simp [greaterEqual]
  | cons a x ih =>
      cases y with
      | nil => simp [greaterEqual]
      | cons b y =>
          rw [greaterEqual, compareWords_cons]
          rcases byte_cases a b with ⟨h, hc⟩ | rfl | ⟨h, hn, hc⟩
          · have hn : ¬b < a := by
              rw [UInt8.lt_iff_toNat_lt] at h ⊢
              omega
            simp [h, hn, hc]
          · simpa using ih y
          · simp [h, hc]

theorem sameBytes_iff {x y : ArtKey} (h : x.length = y.length) :
    sameBytes x y = true ↔ x = y := by
  induction x generalizing y with
  | nil =>
      cases y with
      | nil => simp [sameBytes]
      | cons b y => simp at h
  | cons a x ih =>
      cases y with
      | nil => simp at h
      | cons b y =>
          rw [sameBytes]
          by_cases hab : a = b
          · simp [hab, ih (by simpa using h)]
          · simp [hab]

theorem equal_iff (x y : ArtKey) : equal x y = true ↔ x = y := by
  rw [equal]
  by_cases h : x.length = y.length
  · rw [if_neg (not_not.2 h), sameBytes_iff h]
  · rw [if_pos h]
    exact ⟨fun hf => absurd hf (by decide), fun he => absurd (he ▸ rfl) h⟩

/-! ### Keys of one column -/

theorem escapeString_eq (value : List UInt8) : escapeString value = value.flatMap escapeByte := by
  have hloop : ∀ key : ArtKey,
      value.foldl (fun key b => (if b ≤ 1 then key ++ [1] else key) ++ [b]) key =
        key ++ value.flatMap escapeByte := by
    induction value with
    | nil => simp
    | cons b value ih =>
        intro key
        rw [List.foldl_cons, ih]
        by_cases hb : b ≤ 1 <;> simp [escapeByte, escapes, blobEscapeCharacter, hb]
  exact hloop []

theorem createArtKey_ne_nil (t : ArtType) (v : t.Payload) : createArtKey t v ≠ [] := by
  cases t with
  | bool => exact List.cons_ne_nil _ _
  | integer signed width =>
      have hlen := length_encodeInteger signed width v.1
      intro h
      rw [show encodeInteger signed width v.1 = [] from h] at hlen
      cases width <;> cases hlen
  | string => simp [createArtKey, createStringKey]

def comparePayload : (t : ArtType) → t.Payload → t.Payload → Ordering
  | .bool, v, w => compare v.toNat w.toNat
  | .integer _ _, v, w => compare v.1 w.1
  | .string, s, u => compareWords s u

theorem createArtKey_code : (t : ArtType) → OrderCode (createArtKey t) (comparePayload t)
  | .bool => encodeBool_code.congr (fun v => by cases v <;> rfl) fun _ _ => rfl
  | .integer signed width => encodeInteger_code signed width
  | .string => blob_code.congr (fun s => by
      show escapeString s ++ [0] = _
      rw [escapeString_eq]
      rfl) fun _ _ => rfl

theorem eq_of_comparePayload : (t : ArtType) → {v w : t.Payload} →
    comparePayload t v w = .eq → v = w
  | .bool, v, w, h => by
      cases v <;> cases w <;> first | rfl | exact absurd h (by decide)
  | .integer _ _, _, _, h => Subtype.ext (compare_eq_iff_eq.mp h)
  | .string, _, _, h => eq_of_compareWords h

theorem getRowId_createArtKey (rowId : IntValue true .w64) :
    getRowId (createArtKey (.integer true .w64) rowId) = rowId.1 := by
  have := decodeInteger_encode rowId []
  rwa [List.append_nil] at this

end ArtKey

/-! ## Rows -/

def ArtValues : List ArtType → Type
  | [] => Unit
  | t :: ts => t.Payload × ArtValues ts

/-- A row, `none` standing for NULL. -/
def ArtRow : List ArtType → Type
  | [] => Unit
  | t :: ts => Option t.Payload × ArtRow ts

namespace ArtRow

def HasNull : (types : List ArtType) → ArtRow types → Prop
  | [], _ => False
  | _ :: ts, (v, vs) => v = none ∨ HasNull ts vs

def ofValues : (types : List ArtType) → ArtValues types → ArtRow types
  | [], _ => ()
  | _ :: ts, (v, vs) => (some v, ofValues ts vs)

theorem hasNull_or_eq : (types : List ArtType) → (row : ArtRow types) →
    HasNull types row ∨ ∃ values, row = ofValues types values
  | [], _ => Or.inr ⟨(), rfl⟩
  | _ :: _, (none, _) => Or.inl (Or.inl rfl)
  | _ :: ts, (some v, vs) => by
      rcases hasNull_or_eq ts vs with hnull | ⟨values, rfl⟩
      · exact Or.inl (Or.inr hnull)
      · exact Or.inr ⟨(v, values), rfl⟩

end ArtRow

def compareArtValues : (types : List ArtType) → ArtValues types → ArtValues types → Ordering
  | [], _, _ => .eq
  | t :: ts, (v, vs), (w, ws) => (ArtKey.comparePayload t v w).then (compareArtValues ts vs ws)

def keyOfValues : (types : List ArtType) → ArtValues types → ArtKey
  | [], _ => []
  | t :: ts, (v, vs) => ArtKey.createArtKey t v ++ keyOfValues ts vs

theorem keyOfValues_code : (types : List ArtType) →
    OrderCode (keyOfValues types) (compareArtValues types)
  | [] => OrderCode.unit
  | t :: ts => (ArtKey.createArtKey_code t).pair (keyOfValues_code ts)

theorem eq_of_compareArtValues : (types : List ArtType) → (v w : ArtValues types) →
    compareArtValues types v w = .eq → v = w
  | [], _, _, _ => rfl
  | t :: ts, (_, _), (_, _), h => by
      obtain ⟨hv, hvs⟩ := Ordering.then_eq_eq.mp h
      exact Prod.ext (ArtKey.eq_of_comparePayload t hv) (eq_of_compareArtValues ts _ _ hvs)

/-! ## Generating the keys of a chunk -/

structure InputVector (t : ArtType) where
  sel : Nat → Nat
  data : Nat → t.Payload
  validity : Nat → Bool

/-- The vectors of a `DataChunk`. -/
def DataChunk : List ArtType → Type
  | [] => Unit
  | t :: ts => InputVector t × DataChunk ts

/-- The value of row `i`. -/
def InputVector.value {t : ArtType} (input : InputVector t) (i : Nat) : Option t.Payload :=
  if input.validity (input.sel i) then some (input.data (input.sel i)) else none

/-- Row `i` of a chunk. -/
def DataChunk.row : (types : List ArtType) → DataChunk types → Nat → ArtRow types
  | [], _, _ => ()
  | _ :: ts, (input, inputs), i => (input.value i, DataChunk.row ts inputs i)

/-- A loop over the first `count` keys. -/
def updateKeys (count : Nat) (f : Nat → ArtKey → ArtKey) (keys : Nat → ArtKey) : Nat → ArtKey :=
  (List.range count).foldl (fun keys i => Function.update keys i (f i (keys i))) keys

def templatedGenerateKeys (isNotNull : Bool) {t : ArtType} (input : InputVector t) (count : Nat)
    (keys : Nat → ArtKey) : Nat → ArtKey :=
  updateKeys count (fun i _ =>
    if isNotNull || input.validity (input.sel i) then
      ArtKey.createArtKey t (input.data (input.sel i))
    else []) keys

def concatenateKeys (isNotNull : Bool) {t : ArtType} (input : InputVector t) (count : Nat)
    (keys : Nat → ArtKey) : Nat → ArtKey :=
  updateKeys count (fun i key =>
    if isNotNull then key ++ ArtKey.createArtKey t (input.data (input.sel i))
    else if key = [] then key
    else if !input.validity (input.sel i) then []
    else key ++ ArtKey.createArtKey t (input.data (input.sel i))) keys

/-- The loop of `GenerateKeysInternal` over the remaining columns. -/
def concatenateColumns (isNotNull : Bool) : (types : List ArtType) → DataChunk types → Nat →
    (Nat → ArtKey) → Nat → ArtKey
  | [], _, _, keys => keys
  | _ :: ts, (input, inputs), count, keys =>
      concatenateColumns isNotNull ts inputs count (concatenateKeys isNotNull input count keys)

/-- `GenerateKeysInternal`; an index has at least one column. -/
def generateKeys (isNotNull : Bool) {t : ArtType} {ts : List ArtType} (input : DataChunk (t :: ts))
    (count : Nat) (keys : Nat → ArtKey) : Nat → ArtKey :=
  concatenateColumns isNotNull ts input.2 count
    (templatedGenerateKeys isNotNull input.1 count keys)

theorem updateKeys_apply (f : Nat → ArtKey → ArtKey) (keys : Nat → ArtKey) {i : Nat} :
    (count : Nat) → updateKeys count f keys i = if i < count then f i (keys i) else keys i
  | 0 => rfl
  | count + 1 => by
      have ih : ∀ j, updateKeys count f keys j = if j < count then f j (keys j) else keys j :=
        fun j => updateKeys_apply f keys count
      have hstep : updateKeys (count + 1) f keys = Function.update (updateKeys count f keys) count
          (f count (updateKeys count f keys count)) := by
        rw [updateKeys, List.range_succ, List.foldl_append]
        rfl
      rw [hstep]
      by_cases hi : i = count
      · subst hi
        rw [Function.update_self, ih, if_neg (lt_irrefl _), if_pos (Nat.lt_succ_self _)]
      · rw [Function.update_of_ne hi, ih]
        by_cases hlt : i < count
        · rw [if_pos hlt, if_pos (hlt.trans (Nat.lt_succ_self _))]
        · rw [if_neg hlt, if_neg (by omega)]

theorem concatenateColumns_nil {i : Nat} :
    (types : List ArtType) → (input : DataChunk types) → (count : Nat) → (keys : Nat → ArtKey) →
    i < count → keys i = [] → concatenateColumns false types input count keys i = []
  | [], _, _, _, _, h => h
  | _ :: ts, (input, inputs), count, keys, hi, h => by
      refine concatenateColumns_nil ts inputs count _ hi ?_
      rw [concatenateKeys, updateKeys_apply, if_pos hi]
      simp [h]

theorem concatenateColumns_hasNull {i : Nat} :
    (types : List ArtType) → (input : DataChunk types) → (count : Nat) → (keys : Nat → ArtKey) →
    i < count → (DataChunk.row types input i).HasNull types →
    concatenateColumns false types input count keys i = []
  | [], _, _, _, _, h => h.elim
  | _ :: ts, (input, inputs), count, keys, hi, h => by
      rw [concatenateColumns]
      rcases h with hv | hvs
      · refine concatenateColumns_nil ts inputs count _ hi ?_
        have hinvalid : input.validity (input.sel i) = false := by
          simpa [InputVector.value] using hv
        rw [concatenateKeys, updateKeys_apply, if_pos hi]
        simp [hinvalid]
      · exact concatenateColumns_hasNull ts inputs count _ hi hvs

theorem InputVector.of_value {t : ArtType} {input : InputVector t} {i : Nat} {v : t.Payload}
    (h : input.value i = some v) :
    input.validity (input.sel i) = true ∧ input.data (input.sel i) = v := by
  rw [InputVector.value] at h
  split_ifs at h with hvalid
  exact ⟨hvalid, Option.some.inj h⟩

theorem concatenateColumns_ofValues {i : Nat} (isNotNull : Bool) :
    (types : List ArtType) → (input : DataChunk types) → (count : Nat) → (keys : Nat → ArtKey) →
    (values : ArtValues types) → i < count → keys i ≠ [] →
    DataChunk.row types input i = ArtRow.ofValues types values →
    concatenateColumns isNotNull types input count keys i = keys i ++ keyOfValues types values
  | [], _, _, _, _, _, _, _ => by simp [concatenateColumns, keyOfValues]
  | t :: ts, (input, inputs), count, keys, (v, vs), hi, hne, hrow => by
      obtain ⟨hv, hvs⟩ := Prod.mk.inj hrow
      obtain ⟨hvalid, hdata⟩ := InputVector.of_value hv
      have hkey : concatenateKeys isNotNull input count keys i =
          keys i ++ ArtKey.createArtKey t v := by
        rw [concatenateKeys, updateKeys_apply, if_pos hi]
        simp [hne, hvalid, hdata]
      rw [concatenateColumns, concatenateColumns_ofValues isNotNull ts inputs count _ vs hi
        (by simp [hkey, hne]) hvs, hkey, keyOfValues, List.append_assoc]

theorem generateKeys_ofValues (isNotNull : Bool) {t : ArtType} {ts : List ArtType}
    (input : DataChunk (t :: ts)) {count i : Nat} (keys : Nat → ArtKey) (hi : i < count)
    {values : ArtValues (t :: ts)}
    (hrow : input.row (t :: ts) i = ArtRow.ofValues (t :: ts) values) :
    generateKeys isNotNull input count keys i = keyOfValues (t :: ts) values := by
  obtain ⟨v, vs⟩ := values
  obtain ⟨first, rest⟩ := input
  obtain ⟨hv, hvs⟩ := Prod.mk.inj hrow
  obtain ⟨hvalid, hdata⟩ := InputVector.of_value hv
  have hkey : templatedGenerateKeys isNotNull first count keys i = ArtKey.createArtKey t v := by
    rw [templatedGenerateKeys, updateKeys_apply, if_pos hi]
    simp [hvalid, hdata]
  have hne : templatedGenerateKeys isNotNull first count keys i ≠ [] :=
    hkey ▸ ArtKey.createArtKey_ne_nil t v
  have hrest := concatenateColumns_ofValues isNotNull ts rest count _ vs hi hne hvs
  rwa [hkey] at hrest

theorem generateKeys_hasNull {t : ArtType} {ts : List ArtType} (input : DataChunk (t :: ts))
    {count i : Nat} (keys : Nat → ArtKey) (hi : i < count)
    (hrow : (input.row (t :: ts) i).HasNull (t :: ts)) :
    generateKeys false input count keys i = [] := by
  obtain ⟨first, rest⟩ := input
  rcases hrow with hv | hvs
  · refine concatenateColumns_nil ts rest count _ hi ?_
    have hinvalid : first.validity (first.sel i) = false := by
      simpa [InputVector.value] using hv
    rw [templatedGenerateKeys, updateKeys_apply, if_pos hi]
    simp [hinvalid]
  · exact concatenateColumns_hasNull ts rest count _ hi hvs

theorem keyOfValues_ne_nil {t : ArtType} {ts : List ArtType} (values : ArtValues (t :: ts)) :
    keyOfValues (t :: ts) values ≠ [] := by
  obtain ⟨v, vs⟩ := values
  simp [keyOfValues, ArtKey.createArtKey_ne_nil t v]

/-- The key of a row is empty if and only if some column is NULL. -/
theorem generateKeys_eq_nil_iff {t : ArtType} {ts : List ArtType} (input : DataChunk (t :: ts))
    {count i : Nat} (keys : Nat → ArtKey) (hi : i < count) :
    generateKeys false input count keys i = [] ↔ (input.row (t :: ts) i).HasNull (t :: ts) := by
  refine ⟨fun h => ?_, generateKeys_hasNull input keys hi⟩
  refine (ArtRow.hasNull_or_eq (t :: ts) (input.row (t :: ts) i)).resolve_right ?_
  rintro ⟨values, hrow⟩
  rw [generateKeys_ofValues false input keys hi hrow] at h
  exact keyOfValues_ne_nil values h

/-- Keys of two rows without NULLs, in one chunk or in two: they compare as the
rows do, equal keys mean equal rows, and none is a proper prefix of another. A
key is empty exactly for a row with a NULL, and a row id comes back from its
key. -/
theorem index_keys {t : ArtType} {ts : List ArtType} (a b : DataChunk (t :: ts))
    (countA countB : Nat) (keysA keysB : Nat → ArtKey) (isNotNull : Bool) {i j : Nat}
    (hi : i < countA) (hj : j < countB) {v w : ArtValues (t :: ts)}
    (hv : a.row (t :: ts) i = ArtRow.ofValues (t :: ts) v)
    (hw : b.row (t :: ts) j = ArtRow.ofValues (t :: ts) w) :
    let x := generateKeys isNotNull a countA keysA i
    let y := generateKeys isNotNull b countB keysB j
    compareWords x y = compareArtValues (t :: ts) v w ∧
    (x.greater y = true ↔ compareArtValues (t :: ts) v w = .gt) ∧
    (x.greaterEqual y = true ↔ compareArtValues (t :: ts) v w ≠ .lt) ∧
    (x.equal y = true ↔ v = w) ∧
    (x <+: y → x = y) ∧
    (∀ (c : DataChunk (t :: ts)) (count : Nat) (keys : Nat → ArtKey), ∀ k < count,
      (generateKeys false c count keys k = [] ↔ (c.row (t :: ts) k).HasNull (t :: ts))) ∧
    ∀ rowId : IntValue true .w64,
      ArtKey.getRowId (ArtKey.createArtKey (.integer true .w64) rowId) = rowId.1 := by
  have hcode := keyOfValues_code (t :: ts)
  simp only [generateKeys_ofValues isNotNull a keysA hi hv,
    generateKeys_ofValues isNotNull b keysB hj hw]
  refine ⟨hcode.compare_eq v w, ?_, ?_, ?_, hcode.eq_of_isPrefix,
    fun c count keys k hk => generateKeys_eq_nil_iff c keys hk, ArtKey.getRowId_createArtKey⟩
  · rw [ArtKey.greater_iff, hcode.compare_eq]
  · rw [ArtKey.greaterEqual_iff, hcode.compare_eq]
  · rw [ArtKey.equal_iff, hcode.eq_iff]
    refine ⟨eq_of_compareArtValues (t :: ts) v w, fun h => ?_⟩
    rw [← hcode.compare_eq, h, compareWords_self]

/-- One VARCHAR column with the rows `01` and `00 01`. -/
def stringChunk : DataChunk [.string] :=
  (⟨id, fun i => if i = 0 then [1] else [0, 1], fun _ => true⟩, ())

theorem index_keys_strings :
    compareWords (generateKeys false stringChunk 2 (fun _ => []) 0)
        (generateKeys false stringChunk 2 (fun _ => []) 1) =
      compareArtValues [.string] (([1] : List UInt8), ()) (([0, 1] : List UInt8), ()) :=
  (index_keys stringChunk stringChunk 2 2 (fun _ => []) (fun _ => []) false (i := 0) (j := 1)
    (by decide) (by decide) (v := (([1] : List UInt8), ())) (w := (([0, 1] : List UInt8), ()))
    rfl rfl).1

end MiniDuck
