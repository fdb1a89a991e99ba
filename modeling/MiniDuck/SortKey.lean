import MiniDuck.OrderCode
import MiniDuck.SwarWord
import MiniDuck.IntTypes

/-!
# Sort keys

`createSortKey` writes the columns of a row one behind the other. Every
value begins with a validity byte; NULLS FIRST and NULLS LAST choose the
two bytes at the top level, below it the sort order does. Integers are
written big-endian with the sign bit flipped, strings with every byte
incremented and a zero behind them, blobs with the bytes 0 and 1 escaped,
lists with a zero behind the last element. Under DESC the payload and the
delimiters are complemented and the validity bytes are not.

`encodeVarchar_eq` and `encodeBlob_eq` say that the word-at-a-time loops
write what a loop over the bytes would. From there each type is an
`OrderCode` (`payload_code`), and so is a whole row (`keyBytes_code`).
-/

namespace MiniDuck

/-! ## Types and values -/

mutual

inductive SortType
  | bool
  | integer (signed : Bool) (width : IntWidth)
  | varchar
  | blob
  | struct (fields : SortFields)
  | list (child : SortType)
  | array (child : SortType) (size : Nat)

inductive SortFields
  | nil
  | cons (field : SortType) (fields : SortFields)

end

mutual

/-- The values of a type other than NULL. A string has no byte 0xFF. -/
def SortType.Payload : SortType → Type
  | .bool => Bool
  | .integer signed width => IntValue signed width
  | .varchar => { s : List UInt8 // 0xFF ∉ s }
  | .blob => List UInt8
  | .struct fields => fields.Values
  | .list child => List (Option child.Payload)
  | .array child size => { l : List (Option child.Payload) // l.length = size }

def SortFields.Values : SortFields → Type
  | .nil => Unit
  | .cons field fields => Option field.Payload × fields.Values

end

/-- NULL or a value. The fields of a NULL struct and the elements of a NULL array are NULL. -/
abbrev SortType.Value (t : SortType) : Type := Option t.Payload

/-! ## Writing a key -/

def nullFirstByte : UInt8 := 1

def nullLastByte : UInt8 := 2

def stringDelimiter : UInt8 := 0

def listDelimiter : UInt8 := 0

def blobEscapeCharacter : UInt8 := 1

namespace SortKeyWord

open SwarWord

def escapedBytes (word : Nat) : Nat := zeroBytes (word &&& notWord lsb)

def incrementBytes (word : Nat) : Nat := ((word &&& low7) + lsb) % 2 ^ 64 ^^^ (word &&& msb)

def flipByte (flip : Bool) (byte : UInt8) : UInt8 := if flip then ~~~byte else byte

def flipWord (flip : Bool) (word : Nat) : Nat := if flip then notWord word else word

end SortKeyWord

open SortKeyWord

/-- The loops that map eight bytes as a word and the rest one by one. -/
def mapWords (f : Nat → Nat) (g : UInt8 → UInt8) : List UInt8 → List UInt8
  | a :: b :: c :: d :: a' :: b' :: c' :: d' :: rest =>
      storeBytes 8 (f (loadWord [a, b, c, d, a', b', c', d'])) ++ mapWords f g rest
  | bytes => bytes.map g

/-- `Store` of a byte-swapped number. -/
def storeSwapped (n : Nat) (v : Nat) : List UInt8 := (storeBytes n v).reverse

def flipSign : List UInt8 → List UInt8
  | [] => []
  | b :: bytes => (b ^^^ 128) :: bytes

def encodeSigned (n : Nat) (v : Int) : List UInt8 :=
  flipSign (storeSwapped n (v % 2 ^ (8 * n)).toNat)

/-- `Radix::EncodeData` for the integer types. The 128-bit types are written as two words. -/
def encodeInteger (signed : Bool) (width : IntWidth) (v : Int) : List UInt8 :=
  match width with
  | .w128 =>
      let upper := v / 2 ^ 64
      let lower := (v % 2 ^ 64).toNat
      (if signed then encodeSigned 8 upper else storeSwapped 8 upper.toNat) ++ storeSwapped 8 lower
  | _ => if signed then encodeSigned width.bytes v else storeSwapped width.bytes v.toNat

/-- `SortKeyConstantOperator::Encode`, after `Radix::EncodeData`. -/
def encodeConstant (flip : Bool) (bytes : List UInt8) : List UInt8 :=
  if flip then mapWords SwarWord.notWord (~~~ ·) bytes else bytes

/-- `SortKeyVarcharOperator::Encode`. -/
def encodeVarchar (flip : Bool) (input : List UInt8) : List UInt8 :=
  mapWords (fun w => flipWord flip (incrementBytes w)) (fun b => flipByte flip (b + 1)) input ++
    [flipByte flip stringDelimiter]

/-- The last loop of `SortKeyBlobOperator::Encode`. -/
def encodeBlobBytes (flip : Bool) (input : List UInt8) : List UInt8 :=
  input.flatMap fun b =>
    if b ≤ blobEscapeCharacter then [flipByte flip blobEscapeCharacter, flipByte flip b]
    else [flipByte flip b]

/-- Whether some of the first `words` words has a byte to escape. -/
def hasEscapes : Nat → List UInt8 → Bool
  | 0, _ => false
  | words + 1, input =>
      decide (escapedBytes (loadWord (input.take 8)) ≠ 0) || hasEscapes words (input.drop 8)

/-- The loops of `SortKeyBlobOperator::Encode`: blocks of four words without a byte to escape are
copied, else one word is, up to its first byte to escape. -/
def encodeBlobLoop (flip : Bool) : Nat → List UInt8 → List UInt8
  | 0, input => encodeBlobBytes flip input
  | fuel + 1, input =>
      if input.length < 8 then encodeBlobBytes flip input
      else if 32 ≤ input.length ∧ hasEscapes 4 input = false then
        (storeBytes 8 (flipWord flip (loadWord (input.take 8))) ++
          storeBytes 8 (flipWord flip (loadWord ((input.drop 8).take 8))) ++
          storeBytes 8 (flipWord flip (loadWord ((input.drop 16).take 8))) ++
          storeBytes 8 (flipWord flip (loadWord ((input.drop 24).take 8)))) ++
          encodeBlobLoop flip fuel (input.drop 32)
      else
        let word := loadWord (input.take 8)
        let stored := storeBytes 8 (flipWord flip word)
        let escapes := escapedBytes word
        if escapes = 0 then stored ++ encodeBlobLoop flip fuel (input.drop 8)
        else
          let escapePos := SwarWord.firstFlagged escapes
          stored.take escapePos ++ [flipByte flip blobEscapeCharacter] ++
            ((input.drop escapePos).take 1).map (flipByte flip) ++
            encodeBlobLoop flip fuel (input.drop (escapePos + 1))

/-- `SortKeyBlobOperator::Encode`. -/
def encodeBlob (flip : Bool) (input : List UInt8) : List UInt8 :=
  encodeBlobLoop flip input.length input ++ [flipByte flip stringDelimiter]

/-- The validity bytes below the top level: NULLS LAST under ASC and NULLS FIRST under DESC. -/
def childNullByte (flip : Bool) : UInt8 := if flip then nullFirstByte else nullLastByte

def childValidByte (flip : Bool) : UInt8 := if flip then nullLastByte else nullFirstByte

mutual

/-- What stands behind the validity byte of a NULL: the fields of a struct and the elements of an
array are written all the same. -/
def encodeNull (flip : Bool) : SortType → List UInt8
  | .struct fields => encodeNullFields flip fields
  | .array child size =>
      (List.replicate size (childNullByte flip :: encodeNull flip child)).flatten ++
        [flipByte flip listDelimiter]
  | _ => []

def encodeNullFields (flip : Bool) : SortFields → List UInt8
  | .nil => []
  | .cons field fields =>
      (childNullByte flip :: encodeNull flip field) ++ encodeNullFields flip fields

end

mutual

/-- `ConstructSortKeyRecursive`, behind the validity byte of a value. -/
def encodePayload (flip : Bool) : (t : SortType) → t.Payload → List UInt8
  | .bool, v => encodeConstant flip [bif v then 1 else 0]
  | .integer signed width, v => encodeConstant flip (encodeInteger signed width v.1)
  | .varchar, s => encodeVarchar flip s.1
  | .blob, s => encodeBlob flip s
  | .struct fields, vs => encodeFields flip fields vs
  | .list child, l =>
      (l.flatMap fun v => v.elim (childNullByte flip :: encodeNull flip child)
        fun v => childValidByte flip :: encodePayload flip child v) ++ [flipByte flip listDelimiter]
  | .array child _, l =>
      (l.1.flatMap fun v => v.elim (childNullByte flip :: encodeNull flip child)
        fun v => childValidByte flip :: encodePayload flip child v) ++ [flipByte flip listDelimiter]

def encodeFields (flip : Bool) : (fields : SortFields) → fields.Values → List UInt8
  | .nil, _ => []
  | .cons field fields, vs =>
      (vs.1.elim (childNullByte flip :: encodeNull flip field)
        fun v => childValidByte flip :: encodePayload flip field v) ++
        encodeFields flip fields vs.2

end

structure SortColumn where
  type : SortType
  descending : Bool
  nullsFirst : Bool

/-- `ConstructSortKey` for one column. -/
def encodeColumn (c : SortColumn) (v : c.type.Value) : List UInt8 :=
  let nullByte := if c.nullsFirst then nullFirstByte else nullLastByte
  let validByte := if c.nullsFirst then nullLastByte else nullFirstByte
  v.elim (nullByte :: encodeNull c.descending c.type)
    fun v => validByte :: encodePayload c.descending c.type v

def SortRow : List SortColumn → Type
  | [] => Unit
  | c :: cs => c.type.Value × SortRow cs

def keyBytes : (cs : List SortColumn) → SortRow cs → List UInt8
  | [], _ => []
  | c :: cs, row => encodeColumn c row.1 ++ keyBytes cs row.2

/-- `TypeIsConstantSize` and `GetTypeIdSize`. -/
def SortType.constantSize : SortType → Option Nat
  | .bool => some 1
  | .integer _ width => some width.bytes
  | _ => none

/-- `AccumulateSortKeyWidth` over the columns: the size of the key if all types have a constant
size. -/
def constantKeySize : List SortColumn → Option Nat
  | [] => some 0
  | c :: cs => do
      let size ← c.type.constantSize
      let rest ← constantKeySize cs
      pure (size + 1 + rest)

inductive SortKey
  | bigint (v : Int)
  | blob (bytes : List UInt8)
  deriving DecidableEq

def toInt64 (w : Nat) : Int := if w < 2 ^ 63 then w else (w : Int) - 2 ^ 64

/-- `CreateSortKeyInternal`. A BIGINT key is written over eight zero bytes and byte-swapped. -/
def createSortKey (cs : List SortColumn) (row : SortRow cs) : SortKey :=
  let bytes := keyBytes cs row
  match constantKeySize cs with
  | some size =>
      if size ≤ 8 then
        .bigint (toInt64 (bswap 8 (loadWord (bytes ++ List.replicate (8 - bytes.length) 0))))
      else .blob bytes
  | none => .blob bytes

def SortKey.compare : SortKey → SortKey → Ordering
  | .bigint v, .bigint w => Ord.compare v w
  | .blob x, .blob y => compareWords x y
  | .bigint _, .blob _ => .lt
  | .blob _, .bigint _ => .gt

def SortKey.ProperPrefix : SortKey → SortKey → Prop
  | .blob x, .blob y => x <+: y ∧ x ≠ y
  | _, _ => False

/-! ## The order of the values -/

mutual

/-- Comparison of two values of a type. Inside nested values NULL is larger than every value, and
a list that is a proper prefix of another is smaller. -/
def comparePayload : (t : SortType) → t.Payload → t.Payload → Ordering
  | .bool, v, w => Ord.compare (v.toNat) (w.toNat)
  | .integer _ _, v, w => Ord.compare v.1 w.1
  | .varchar, s, u => compareWords s.1 u.1
  | .blob, s, u => compareWords s u
  | .struct fields, vs, ws => compareFields fields vs ws
  | .list child, l, m => compareLists (compareOptions (comparePayload child) .gt) .lt l m
  | .array child _, l, m => compareLists (compareOptions (comparePayload child) .gt) .lt l.1 m.1

def compareFields : (fields : SortFields) → fields.Values → fields.Values → Ordering
  | .nil, _, _ => .eq
  | .cons field fields, vs, ws =>
      (compareOptions (comparePayload field) .gt vs.1 ws.1).then (compareFields fields vs.2 ws.2)

end

/-- Comparison in a column: DESC reverses the values, NULLS FIRST and NULLS LAST place NULL. -/
def compareColumn (c : SortColumn) (v w : c.type.Value) : Ordering :=
  compareOptions
    (fun v w => if c.descending then (comparePayload c.type v w).swap
      else comparePayload c.type v w)
    (if c.nullsFirst then .lt else .gt) v w

def compareRows : (cs : List SortColumn) → SortRow cs → SortRow cs → Ordering
  | [], _, _ => .eq
  | c :: cs, v, w => (compareColumn c v.1 w.1).then (compareRows cs v.2 w.2)

/-! ## Word-at-a-time loops -/

theorem compare_not (a b : UInt8) : compare (~~~a) (~~~b) = (compare a b).swap := by
  have ha : (~~~a).toNat = 255 - a.toNat := UInt8.toNat_not a
  have hb : (~~~b).toNat = 255 - b.toNat := UInt8.toNat_not b
  have ha' : a.toNat < 256 := a.toNat_lt
  have hb' : b.toNat < 256 := b.toNat_lt
  rw [compare_byte, compare_byte, ha, hb, Nat.compare_eq_ite_lt, Nat.compare_eq_ite_lt]
  rcases Nat.lt_trichotomy a.toNat b.toNat with h | h | h
  · rw [if_neg (by omega), if_pos (by omega), if_pos h]
    rfl
  · rw [if_neg (by omega), if_neg (by omega), if_neg (by omega), if_neg (by omega)]
    rfl
  · rw [if_pos (by omega), if_neg (by omega), if_pos h]
    rfl

theorem mapWords_eq {f : Nat → Nat} {g : UInt8 → UInt8}
    (h : ∀ bytes : List UInt8, bytes.length = 8 → f (loadWord bytes) = loadWord (bytes.map g))
    (bytes : List UInt8) : mapWords f g bytes = bytes.map g := by
  fun_induction mapWords f g bytes with
  | case1 a b c d a' b' c' d' rest ih =>
      have hstore := storeBytes_loadWord ([a, b, c, d, a', b', c', d'].map g)
      rw [h _ rfl, ih]
      exact congrArg (· ++ rest.map g) hstore
  | case2 bytes => rfl

variable {bytes : List UInt8}

theorem incrementBytes_loadWord (h : bytes.length = 8) :
    incrementBytes (loadWord bytes) = loadWord (bytes.map (· + 1)) := by
  unfold incrementBytes
  rw [SwarWord.low7_eq, SwarWord.lsb_eq, SwarWord.msb_eq, SwarWord.and_replicate h,
    SwarWord.and_replicate h, SwarWord.add_replicate (by simpa using h), List.map_map,
    loadWord_xor (by simp), SwarWord.zipWith_map_self]
  · refine congrArg loadWord (List.map_congr_left fun b _ => ?_)
    have hbyte : ∀ b : BitVec 8, ((b &&& 0x7F#8) + 1#8) ^^^ (b &&& 0x80#8) = b + 1#8 := by decide
    exact UInt8.toBitVec_inj.mp (hbyte b.toBitVec)
  · intro a ha
    obtain ⟨b, -, rfl⟩ := List.mem_map.mp ha
    have hle : (b &&& 0x7F).toNat ≤ 127 := by
      rw [UInt8.toNat_and]
      exact Nat.and_le_right
    have hone : (1 : UInt8).toNat = 1 := rfl
    omega

@[simp] theorem flipByte_false : flipByte false = id := rfl

@[simp] theorem flipByte_true : flipByte true = (~~~ ·) := rfl

theorem flipWord_loadWord (flip : Bool) (h : bytes.length = 8) :
    flipWord flip (loadWord bytes) = loadWord (bytes.map (flipByte flip)) := by
  cases flip with
  | false => simp [flipWord]
  | true => simpa [flipWord] using SwarWord.notWord_loadWord h

theorem storeBytes_flipWord (flip : Bool) (h : bytes.length = 8) :
    storeBytes 8 (flipWord flip (loadWord bytes)) = bytes.map (flipByte flip) := by
  have hlen : (bytes.map (flipByte flip)).length = 8 := by simpa using h
  rw [flipWord_loadWord flip h, ← hlen, storeBytes_loadWord]

theorem encodeConstant_eq (flip : Bool) (bytes : List UInt8) :
    encodeConstant flip bytes = bytes.map (flipByte flip) := by
  cases flip with
  | false => simp [encodeConstant]
  | true =>
      have := mapWords_eq (f := SwarWord.notWord) (fun bytes h => SwarWord.notWord_loadWord h) bytes
      simpa [encodeConstant] using this

/-- Strings are written as a loop over the bytes would. -/
theorem encodeVarchar_eq (flip : Bool) (input : List UInt8) :
    encodeVarchar flip input =
      (input.map (· + 1) ++ [stringDelimiter]).map (flipByte flip) := by
  have hword : ∀ bytes : List UInt8, bytes.length = 8 →
      flipWord flip (incrementBytes (loadWord bytes)) =
        loadWord (bytes.map fun b => flipByte flip (b + 1)) := by
    intro bytes h
    rw [incrementBytes_loadWord h, flipWord_loadWord flip (by simpa using h), List.map_map]
    rfl
  unfold encodeVarchar
  rw [mapWords_eq hword, List.map_append, List.map_map]
  rfl

/-! ### Blobs -/

theorem escapedBytes_loadWord (h : bytes.length = 8) : escapedBytes (loadWord bytes) =
      loadWord (bytes.map fun b => if decide (b ≤ blobEscapeCharacter) then 0x80 else 0) := by
  unfold escapedBytes
  rw [SwarWord.lsb_eq, SwarWord.notWord_loadWord (by simp), List.map_replicate,
    SwarWord.and_replicate h, SwarWord.zeroBytes_loadWord (by simpa using h), List.map_map]
  refine congrArg loadWord (List.map_congr_left fun b _ => ?_)
  have hbyte : ∀ b : BitVec 8, (b &&& ~~~1#8 = 0#8) ↔ b ≤ 1#8 := by decide
  have hiff : (b &&& ~~~1 = 0) ↔ b ≤ blobEscapeCharacter := by
    rw [← UInt8.toBitVec_inj]
    exact hbyte b.toBitVec
  by_cases hb : b ≤ blobEscapeCharacter
  · have := hiff.mpr hb
    simp [this, hb]
  · have : ¬ b &&& ~~~1 = 0 := fun hz => hb (hiff.mp hz)
    simp only [Function.comp_apply, if_neg this, hb, decide_false, Bool.false_eq_true, if_false]

theorem loadWord_eq_zero : loadWord bytes = 0 ↔ ∀ b ∈ bytes, b = 0 := by
  induction bytes with
  | nil => simp
  | cons b bytes ih =>
      have hb : b = 0 ↔ b.toNat = 0 := by
        rw [← UInt8.toNat_inj]
        rfl
      rw [loadWord_cons, List.forall_mem_cons, ← ih, hb]
      omega

def escapes (b : UInt8) : Bool := decide (b ≤ blobEscapeCharacter)

theorem escapedBytes_eq_zero (h : bytes.length = 8) :
    escapedBytes (loadWord bytes) = 0 ↔ bytes.any escapes = false := by
  rw [escapedBytes_loadWord h, loadWord_eq_zero, List.any_eq_false]
  simp only [List.forall_mem_map, escapes]
  refine forall_congr' fun b => forall_congr' fun _ => ?_
  by_cases hb : b ≤ blobEscapeCharacter <;> simp [hb]

theorem firstFlagged_escapedBytes (h : bytes.length = 8) (hany : bytes.any escapes = true) :
    SwarWord.firstFlagged (escapedBytes (loadWord bytes)) = bytes.findIdx escapes := by
  rw [escapedBytes_loadWord h]
  exact SwarWord.firstFlagged_loadWord escapes bytes (by omega) hany

theorem encodeBlobBytes_append (flip : Bool) (x y : List UInt8) :
    encodeBlobBytes flip (x ++ y) = encodeBlobBytes flip x ++ encodeBlobBytes flip y :=
  List.flatMap_append ..

theorem encodeBlobBytes_plain (flip : Bool) {x : List UInt8} (h : x.any escapes = false) :
    encodeBlobBytes flip x = x.map (flipByte flip) := by
  induction x with
  | nil => rfl
  | cons b x ih =>
      rw [List.any_cons, Bool.or_eq_false_iff] at h
      have hb : ¬ b ≤ blobEscapeCharacter := by simpa [escapes] using h.1
      have hrest := ih h.2
      unfold encodeBlobBytes at hrest ⊢
      rw [List.flatMap_cons, if_neg hb, hrest]
      rfl

theorem encodeBlobBytes_escape (flip : Bool) {b : UInt8} (h : escapes b = true) :
    encodeBlobBytes flip [b] = [flipByte flip blobEscapeCharacter, flipByte flip b] := by
  have hb : b ≤ blobEscapeCharacter := by simpa [escapes] using h
  simp [encodeBlobBytes, hb]

theorem hasEscapes_eq (n : Nat) (input : List UInt8) (h : 8 * n ≤ input.length) :
    hasEscapes n input = (input.take (8 * n)).any escapes := by
  induction n generalizing input with
  | zero => rfl
  | succ n ih =>
      have hlen : (input.take 8).length = 8 := by
        rw [List.length_take]
        omega
      have hrest := ih (input.drop 8) (by rw [List.length_drop]; omega)
      have hsplit : input.take (8 * (n + 1)) = input.take 8 ++ (input.drop 8).take (8 * n) := by
        rw [← List.take_add, Nat.mul_succ, Nat.add_comm]
      rw [hasEscapes, hrest, hsplit, List.any_append]
      congr 1
      rw [Bool.eq_iff_iff, decide_eq_true_eq, Ne, escapedBytes_eq_zero hlen]
      simp

theorem findIdx_escapes {input : List UInt8} (hlen : (input.take 8).length = 8)
    (hany : (input.take 8).any escapes = true) :
    ∃ i b, (input.take 8).findIdx escapes = i ∧ i < 8 ∧
      input.drop i = b :: input.drop (i + 1) ∧ (input.take i).any escapes = false ∧
      escapes b = true := by
  have hlt : (input.take 8).findIdx escapes < (input.take 8).length :=
    List.findIdx_lt_length_of_exists (by simpa using hany)
  have hget := List.findIdx_getElem (w := hlt)
  have hi8 : (input.take 8).findIdx escapes < 8 := by omega
  have hi : (input.take 8).findIdx escapes < input.length := by
    have := List.length_take_le 8 input
    rw [List.length_take] at hlen
    omega
  refine ⟨_, input[(input.take 8).findIdx escapes], rfl, hi8, List.drop_eq_getElem_cons hi, ?_, ?_⟩
  · rw [List.any_eq_false]
    intro a ha
    obtain ⟨j, hj, rfl⟩ := List.mem_iff_getElem.mp ha
    rw [List.length_take] at hj
    have hji : j < (input.take 8).findIdx escapes := by omega
    have := List.not_of_lt_findIdx hji
    simpa using this
  · simpa using hget

/-- The blocks and words of a blob are written as a loop over the bytes would. -/
theorem encodeBlobLoop_eq (flip : Bool) (fuel : Nat) (input : List UInt8) :
    encodeBlobLoop flip fuel input = encodeBlobBytes flip input := by
  induction fuel generalizing input with
  | zero => rfl
  | succ fuel ih =>
      rw [encodeBlobLoop]
      split
      · rfl
      · rename_i hlen
        have htake (k : Nat) (h : k + 8 ≤ input.length) : ((input.drop k).take 8).length = 8 := by
          rw [List.length_take, List.length_drop]
          omega
        have htake0 : (input.take 8).length = 8 := by
          rw [List.length_take]
          omega
        split
        · rename_i hblock
          obtain ⟨h32, hno⟩ := hblock
          rw [hasEscapes_eq 4 input h32] at hno
          rw [storeBytes_flipWord flip htake0, storeBytes_flipWord flip (htake 8 (by omega)),
            storeBytes_flipWord flip (htake 16 (by omega)),
            storeBytes_flipWord flip (htake 24 (by omega)), ih]
          have hsplit : input.take 32 = input.take 8 ++ (input.drop 8).take 8 ++
              (input.drop 16).take 8 ++ (input.drop 24).take 8 := by
            rw [← List.take_add, ← List.take_add, ← List.take_add]
          have hplain := encodeBlobBytes_plain flip hno
          rw [hsplit, List.map_append, List.map_append, List.map_append] at hplain
          conv_rhs => rw [← List.take_append_drop 32 input, encodeBlobBytes_append, hsplit, hplain]
        · have hstored := storeBytes_flipWord flip htake0
          simp only [hstored, ih]
          by_cases hany : (input.take 8).any escapes = true
          · -- the bytes before the first one to escape are copied
            have hzero : ¬ escapedBytes (loadWord (input.take 8)) = 0 := by
              rw [escapedBytes_eq_zero htake0, hany]
              simp
            rw [if_neg hzero, firstFlagged_escapedBytes htake0 hany]
            obtain ⟨i, b, hfind, h8, hsplit, hplain, hesc⟩ := findIdx_escapes htake0 hany
            have hmap : ((input.take 8).map (flipByte flip)).take i =
                (input.take i).map (flipByte flip) := by
              rw [← List.map_take, List.take_take, Nat.min_eq_left (by omega)]
            have hone : (input.drop i).take 1 = [b] := by
              rw [hsplit]
              rfl
            have hrest : input.drop (i + 1) = (input.drop i).drop 1 := by rw [List.drop_drop]
            rw [hfind, hmap, hone, hrest]
            conv_rhs => rw [← List.take_append_drop i input, encodeBlobBytes_append,
              encodeBlobBytes_plain flip hplain, ← List.take_append_drop 1 (input.drop i), hone,
              encodeBlobBytes_append, encodeBlobBytes_escape flip hesc]
            simp
          · have hno : (input.take 8).any escapes = false := by simpa using hany
            rw [if_pos ((escapedBytes_eq_zero htake0).mpr hno)]
            conv_rhs => rw [← List.take_append_drop 8 input, encodeBlobBytes_append,
              encodeBlobBytes_plain flip hno]

theorem encodeBlob_eq (flip : Bool) (input : List UInt8) :
    encodeBlob flip input = encodeBlobBytes flip input ++ [flipByte flip stringDelimiter] := by
  rw [encodeBlob, encodeBlobLoop_eq]

/-! ## Integers -/

@[simp] theorem length_storeSwapped (n v : Nat) : (storeSwapped n v).length = n := by
  simp [storeSwapped]

theorem compare_storeSwapped {n v w : Nat} (hv : v < 256 ^ n) (hw : w < 256 ^ n)
    (x y : List UInt8) :
    compareWords (storeSwapped n v ++ x) (storeSwapped n w ++ y) =
      (compare v w).then (compareWords x y) := by
  rw [compareWords_append (by simp), compare_loadWord_reverse (by simp)]
  simp only [storeSwapped, List.reverse_reverse, loadWord_storeBytes, Nat.mod_eq_of_lt hv,
    Nat.mod_eq_of_lt hw]

theorem storeBytes_mod (n v : Nat) : storeBytes n (v % 256 ^ n) = storeBytes n v := by
  rw [← loadWord_storeBytes]
  have := storeBytes_loadWord (storeBytes n v)
  rwa [length_storeBytes] at this

theorem storeBytes_succ (n v : Nat) :
    storeBytes (n + 1) v = storeBytes n v ++ [UInt8.ofNat (v / 256 ^ n)] := by
  induction n generalizing v with
  | zero => simp [storeBytes]
  | succ n ih =>
      rw [storeBytes, ih (v / 256), storeBytes, Nat.div_div_eq_div_mul, Nat.pow_succ,
        Nat.mul_comm 256]
      rfl

theorem storeSwapped_succ (n v : Nat) :
    storeSwapped (n + 1) v = UInt8.ofNat (v / 256 ^ n) :: storeSwapped n v := by
  simp [storeSwapped, storeBytes_succ]

theorem flipSign_storeSwapped (n v : Nat) :
    flipSign (storeSwapped (n + 1) v) = storeSwapped (n + 1) (v + 128 * 256 ^ n) := by
  have hpos : 0 < 256 ^ n := Nat.pow_pos (by omega)
  have hdiv : (v + 128 * 256 ^ n) / 256 ^ n = v / 256 ^ n + 128 := Nat.add_mul_div_right _ _ hpos
  have hmod : storeSwapped n (v + 128 * 256 ^ n) = storeSwapped n v := by
    unfold storeSwapped
    rw [← storeBytes_mod, Nat.add_mul_mod_self_right, storeBytes_mod]
  have hbyte : ∀ b : BitVec 8, b ^^^ 128#8 = b + 128#8 := by decide
  have hflip : UInt8.ofNat (v / 256 ^ n) ^^^ 128 = UInt8.ofNat (v / 256 ^ n + 128) := by
    rw [UInt8.ofNat_add]
    exact UInt8.toBitVec_inj.mp (hbyte _)
  rw [storeSwapped_succ, storeSwapped_succ, hdiv, hmod, ← hflip]
  rfl

theorem encodeSigned_eq {n : Nat} {v : Int} (hn : 0 < n) (hlo : -(2 ^ (8 * n - 1)) ≤ v)
    (hhi : v < 2 ^ (8 * n - 1)) :
    encodeSigned n v = storeSwapped n (v + 2 ^ (8 * n - 1)).toNat ∧
      (v + 2 ^ (8 * n - 1)).toNat < 256 ^ n := by
  obtain ⟨n, rfl⟩ : ∃ k, n = k + 1 := ⟨n - 1, by omega⟩
  have hhalf : (2 : Int) ^ (8 * (n + 1) - 1) = ((128 * 256 ^ n : Nat) : Int) := by
    have h8 : 8 * (n + 1) - 1 = 7 + 8 * n := by omega
    rw [h8, pow_add, pow_mul]
    push_cast
    rfl
  have hfull : (2 : Int) ^ (8 * (n + 1)) = ((256 ^ (n + 1) : Nat) : Int) := by
    rw [pow_mul]
    push_cast
    rfl
  have h256 : 256 ^ (n + 1) = 2 * (128 * 256 ^ n) := by
    rw [Nat.pow_succ]
    omega
  rw [hhalf] at hlo hhi ⊢
  have hlt : (v + ((128 * 256 ^ n : Nat) : Int)).toNat < 256 ^ (n + 1) := by omega
  refine ⟨?_, hlt⟩
  unfold encodeSigned
  rw [flipSign_storeSwapped, hfull]
  unfold storeSwapped
  rw [← storeBytes_mod]
  congr 2
  have hcongr : (((v % ((256 ^ (n + 1) : Nat) : Int)).toNat + 128 * 256 ^ n) % 256 ^ (n + 1) : Nat)
      = (v + ((128 * 256 ^ n : Nat) : Int)).toNat := by
    rcases lt_or_ge v 0 with hneg | hpos
    · have hmod : v % ((256 ^ (n + 1) : Nat) : Int) = v + ((256 ^ (n + 1) : Nat) : Int) := by
        rw [← Int.add_emod_right]
        exact Int.emod_eq_of_lt (by omega) (by omega)
      rw [hmod]
      have hsum : (v + ((256 ^ (n + 1) : Nat) : Int)).toNat + 128 * 256 ^ n =
          (v + ((128 * 256 ^ n : Nat) : Int)).toNat + 256 ^ (n + 1) := by omega
      rw [hsum, Nat.add_mod_right, Nat.mod_eq_of_lt hlt]
    · rw [Int.emod_eq_of_lt hpos (by omega), Nat.mod_eq_of_lt (by omega)]
      omega
  exact hcongr

theorem compare_encodeSigned {n : Nat} (hn : 0 < n) {v w : Int}
    (hv : -(2 ^ (8 * n - 1)) ≤ v ∧ v < 2 ^ (8 * n - 1))
    (hw : -(2 ^ (8 * n - 1)) ≤ w ∧ w < 2 ^ (8 * n - 1)) (x y : List UInt8) :
    compareWords (encodeSigned n v ++ x) (encodeSigned n w ++ y) =
      (compare v w).then (compareWords x y) := by
  obtain ⟨hveq, hvlt⟩ := encodeSigned_eq hn hv.1 hv.2
  obtain ⟨hweq, hwlt⟩ := encodeSigned_eq hn hw.1 hw.2
  rw [hveq, hweq, compare_storeSwapped hvlt hwlt]
  have hcompare : compare (v + 2 ^ (8 * n - 1)).toNat (w + 2 ^ (8 * n - 1)).toNat = compare v w :=
    compare_congr (by omega) (by omega)
  rw [hcompare]

theorem compare_encodeUnsigned {n : Nat} {v w : Int} (hv : 0 ≤ v ∧ v < 2 ^ (8 * n))
    (hw : 0 ≤ w ∧ w < 2 ^ (8 * n)) (x y : List UInt8) :
    compareWords (storeSwapped n v.toNat ++ x) (storeSwapped n w.toNat ++ y) =
      (compare v w).then (compareWords x y) := by
  have hfull : (2 : Int) ^ (8 * n) = ((256 ^ n : Nat) : Int) := by
    rw [pow_mul]
    push_cast
    rfl
  rw [hfull] at hv hw
  rw [compare_storeSwapped (by omega) (by omega)]
  have hcompare : compare v.toNat w.toNat = compare v w := compare_congr (by omega) (by omega)
  rw [hcompare]

/-- A 128-bit number is compared by its upper word first. -/
theorem compare_words (v w : Int) :
    compare v w = (compare (v / 2 ^ 64) (w / 2 ^ 64)).then
      (compare (v % 2 ^ 64).toNat (w % 2 ^ 64).toNat) := by
  rcases lt_trichotomy (v / 2 ^ 64) (w / 2 ^ 64) with h | h | h
  · rw [compare_lt_iff_lt.mpr h, compare_lt_iff_lt.mpr (by omega)]
    rfl
  · rw [compare_eq_iff_eq.mpr h]
    exact compare_congr (by omega) (by omega)
  · rw [compare_gt_iff_gt.mpr h, compare_gt_iff_gt.mpr (by omega)]
    rfl

theorem compare_encodeNumber {signed : Bool} {n : Nat} (hn : 0 < n) {v w : Int}
    (hv : IntBounds signed n v) (hw : IntBounds signed n w) (x y : List UInt8) :
    compareWords ((if signed then encodeSigned n v else storeSwapped n v.toNat) ++ x)
        ((if signed then encodeSigned n w else storeSwapped n w.toNat) ++ y) =
      (compare v w).then (compareWords x y) := by
  cases signed with
  | true => exact compare_encodeSigned hn hv hw x y
  | false => exact compare_encodeUnsigned hv hw x y

theorem intBounds_upper {signed : Bool} {v : Int} (h : IntBounds signed 16 v) :
    IntBounds signed 8 (v / 2 ^ 64) := by
  cases signed with
  | true =>
      obtain ⟨hlo, hhi⟩ : -(2 ^ 127) ≤ v ∧ v < 2 ^ 127 := h
      show -(2 ^ 63) ≤ v / 2 ^ 64 ∧ v / 2 ^ 64 < 2 ^ 63
      omega
  | false =>
      obtain ⟨hlo, hhi⟩ : 0 ≤ v ∧ v < 2 ^ 128 := h
      show 0 ≤ v / 2 ^ 64 ∧ v / 2 ^ 64 < 2 ^ 64
      omega

theorem encodeInteger_code (signed : Bool) (width : IntWidth) :
    OrderCode (fun v : IntValue signed width => encodeInteger signed width v.1)
      (fun v w => compare v.1 w.1) := by
  rintro ⟨v, hv⟩ ⟨w, hw⟩ x y
  cases width with
  | w128 =>
      have hlow (v : Int) : (v % 2 ^ 64).toNat < 256 ^ 8 := by omega
      simp only [encodeInteger, List.append_assoc]
      rw [compare_encodeNumber (by omega) (intBounds_upper hv) (intBounds_upper hw),
        compare_storeSwapped (hlow v) (hlow w), compare_words v w, Ordering.then_assoc]
  | _ => exact compare_encodeNumber (by decide) hv hw x y

/-! ## Types -/

def swapIf (flip : Bool) (o : Ordering) : Ordering := if flip then o.swap else o

theorem swapIf_then (flip : Bool) (o r : Ordering) :
    swapIf flip (o.then r) = (swapIf flip o).then (swapIf flip r) := by
  cases flip with
  | false => rfl
  | true => exact Ordering.swap_then o r

theorem flip_code {α : Type} {encode : α → List UInt8} {cmp : α → α → Ordering}
    (h : OrderCode encode cmp) (flip : Bool) :
    OrderCode (fun v => (encode v).map (flipByte flip)) (fun v w => swapIf flip (cmp v w)) := by
  cases flip with
  | false => exact h.congr (fun v => by simp) fun _ _ => rfl
  | true => exact h.reverse compare_not

theorem encodeBool_code : OrderCode (fun v : Bool => [bif v then (1 : UInt8) else 0])
    (fun v w => compare v.toNat w.toNat) := by
  intro v w x y
  cases v <;> cases w <;> rfl

theorem compareLists_compare (x y : List UInt8) :
    compareLists compare .lt x y = compareWords x y := by
  induction x generalizing y with
  | nil => cases y <;> rfl
  | cons a x ih => cases y with
    | nil => rfl
    | cons b y => simp only [compareLists, compareWords_cons, ih]

theorem compare_increment {a b : UInt8} (ha : a ≠ 0xFF) (hb : b ≠ 0xFF) :
    compare (a + 1) (b + 1) = compare a b := by
  have hadd (b : UInt8) (hb : b ≠ 0xFF) : (b + 1).toNat = b.toNat + 1 := by
    have hlt : b.toNat < 256 := b.toNat_lt
    have hne : b.toNat ≠ 255 := fun h => hb (UInt8.toNat_inj.mp h)
    have hone : (1 : UInt8).toNat = 1 := rfl
    rw [UInt8.toNat_add]
    exact Nat.mod_eq_of_lt (by omega)
  rw [compare_byte, compare_byte, hadd a ha, hadd b hb]
  exact compare_congr (by omega) (by omega)

theorem increment_code : OrderCode (fun b : { b : UInt8 // b ≠ 0xFF } => [b.1 + 1])
    (fun a b => compare a.1 b.1) := by
  intro a b x y
  simp [compare_increment a.2 b.2]

theorem increment_delimits :
    Delimits stringDelimiter .lt (fun b : { b : UInt8 // b ≠ 0xFF } => [b.1 + 1]) := by
  intro b
  have hpos : stringDelimiter < b.1 + 1 := by
    have hne : b.1 + 1 ≠ 0 := by
      intro h
      have hbyte : ∀ b : BitVec 8, b + 1#8 = 0#8 → b = 0xFF#8 := by decide
      exact b.2 (UInt8.toBitVec_inj.mp (hbyte b.1.toBitVec (congrArg UInt8.toBitVec h)))
    exact UInt8.pos_iff_ne_zero.mpr hne
  refine ⟨b.1 + 1, [], rfl, ?_, ?_⟩
  · rw [compare_byte]
    exact compare_lt_iff_lt.mpr hpos
  · rw [compare_byte]
    exact compare_gt_iff_gt.mpr hpos

theorem varchar_code :
    OrderCode (fun s : { s : List UInt8 // 0xFF ∉ s } => s.1.map (· + 1) ++ [stringDelimiter])
      (fun s u => compareWords s.1 u.1) := by
  have hlist := (OrderCode.list increment_code (by decide) increment_delimits).comap
    fun s : { s : List UInt8 // 0xFF ∉ s } =>
      s.1.attachWith (· ≠ 0xFF) fun b hb h => s.2 (h ▸ hb)
  refine hlist.congr (fun s => ?_) (fun s u => ?_)
  · rw [← List.map_eq_flatMap]
    simp
  · rw [compareLists_map, List.attachWith_map_subtype_val, List.attachWith_map_subtype_val,
      compareLists_compare]

def escapeByte (b : UInt8) : List UInt8 := if escapes b then [blobEscapeCharacter, b] else [b]

theorem escapes_iff (b : UInt8) : escapes b = true ↔ b.toNat ≤ 1 := by
  simp only [escapes, decide_eq_true_eq, UInt8.le_iff_toNat_le]
  rfl

theorem escapeByte_code : OrderCode escapeByte compare := by
  intro a b x y
  have hone : blobEscapeCharacter.toNat = 1 := rfl
  by_cases ha : escapes a = true
  · by_cases hb : escapes b = true
    · simp [escapeByte, ha, hb]
    · have hcompare : compare blobEscapeCharacter b = .lt ∧ compare a b = .lt := by
        rw [escapes_iff] at ha hb
        rw [compare_byte, compare_byte, compare_lt_iff_lt, compare_lt_iff_lt]
        omega
      simp [escapeByte, ha, hb, hcompare]
  · by_cases hb : escapes b = true
    · have hcompare : compare a blobEscapeCharacter = .gt ∧ compare a b = .gt := by
        rw [escapes_iff] at ha hb
        rw [compare_byte, compare_byte, compare_gt_iff_gt, compare_gt_iff_gt]
        omega
      simp [escapeByte, ha, hb, hcompare]
    · simp [escapeByte, ha, hb]

theorem escapeByte_delimits : Delimits stringDelimiter .lt escapeByte := by
  intro b
  by_cases hb : escapes b = true
  · exact ⟨blobEscapeCharacter, [b], by simp [escapeByte, hb], by decide, by decide⟩
  · have hpos : 0 < b.toNat := by
      rw [escapes_iff] at hb
      omega
    refine ⟨b, [], by simp [escapeByte, hb], ?_, ?_⟩
    · rw [compare_byte]
      exact compare_lt_iff_lt.mpr hpos
    · rw [compare_byte]
      exact compare_gt_iff_gt.mpr hpos

theorem blob_code :
    OrderCode (fun s : List UInt8 => s.flatMap escapeByte ++ [stringDelimiter]) compareWords :=
  (OrderCode.list escapeByte_code (by decide) escapeByte_delimits).congr (fun _ => rfl)
    fun s u => (compareLists_compare s u).symm

theorem encodeBlobBytes_eq (flip : Bool) (input : List UInt8) :
    encodeBlobBytes flip input = (input.flatMap escapeByte).map (flipByte flip) := by
  rw [List.map_flatMap, encodeBlobBytes]
  refine congrArg (input.flatMap ·) (funext fun b => ?_)
  by_cases hb : b ≤ blobEscapeCharacter
  · simp [escapeByte, escapes, hb]
  · simp [escapeByte, escapes, hb]

theorem encodeBlob_map (flip : Bool) (input : List UInt8) :
    encodeBlob flip input =
      (input.flatMap escapeByte ++ [stringDelimiter]).map (flipByte flip) := by
  rw [encodeBlob_eq, encodeBlobBytes_eq, List.map_append]
  rfl

/-! ### Nested values -/

/-- A value below the top level with its validity byte. -/
theorem child_code {α : Type} {encode : α → List UInt8} {cmp : α → α → Ordering} {flip : Bool}
    (h : OrderCode encode fun v w => swapIf flip (cmp v w)) (z : List UInt8) :
    OrderCode (fun v : Option α => v.elim (childNullByte flip :: z)
        fun a => childValidByte flip :: encode a)
      (fun v w => swapIf flip (compareOptions cmp .gt v w)) := by
  cases flip with
  | false => exact OrderCode.option h (by decide) rfl rfl z
  | true =>
      exact (OrderCode.option h (o := .lt) (by decide) rfl rfl z).congr (fun _ => rfl)
        fun v w => (compareOptions_swap cmp .gt v w).symm

theorem child_delimits {α : Type} (encode : α → List UInt8) (flip : Bool) (z : List UInt8) :
    Delimits (flipByte flip listDelimiter) (swapIf flip .lt)
      (fun v : Option α => v.elim (childNullByte flip :: z)
        fun a => childValidByte flip :: encode a) := by
  intro v
  cases v with
  | none =>
      refine ⟨childNullByte flip, z, rfl, ?_⟩
      cases flip <;> exact ⟨rfl, rfl⟩
  | some a =>
      refine ⟨childValidByte flip, encode a, rfl, ?_⟩
      cases flip <;> exact ⟨rfl, rfl⟩

theorem children_code {α : Type} {encode : α → List UInt8} {cmp : α → α → Ordering} {flip : Bool}
    (h : OrderCode encode fun v w => swapIf flip (cmp v w)) (z : List UInt8) :
    OrderCode (fun l : List (Option α) => (l.flatMap fun v => v.elim (childNullByte flip :: z)
        fun a => childValidByte flip :: encode a) ++ [flipByte flip listDelimiter])
      (fun l m => swapIf flip (compareLists (compareOptions cmp .gt) .lt l m)) := by
  have hne : swapIf flip .lt ≠ .eq := by cases flip <;> decide
  refine (OrderCode.list (child_code h z) hne (child_delimits encode flip z)).congr (fun _ => rfl)
    fun l m => ?_
  cases flip with
  | false => rfl
  | true => exact (compareLists_swap (compareOptions cmp .gt) .lt l m).symm

mutual

/-- Every type is written in an order code, reversed under DESC. -/
theorem payload_code (flip : Bool) : (t : SortType) →
    OrderCode (encodePayload flip t) (fun v w => swapIf flip (comparePayload t v w))
  | .bool => (flip_code encodeBool_code flip).congr (fun _ => encodeConstant_eq flip _)
      fun _ _ => rfl
  | .integer signed width => (flip_code (encodeInteger_code signed width) flip).congr
      (fun _ => encodeConstant_eq flip _) fun _ _ => rfl
  | .varchar => (flip_code varchar_code flip).congr (fun s => encodeVarchar_eq flip s.1)
      fun _ _ => rfl
  | .blob => (flip_code blob_code flip).congr (encodeBlob_map flip) fun _ _ => rfl
  | .struct fields => fields_code flip fields
  | .list child => children_code (payload_code flip child) (encodeNull flip child)
  | .array child _ =>
      (children_code (payload_code flip child) (encodeNull flip child)).comap Subtype.val

theorem fields_code (flip : Bool) : (fields : SortFields) →
    OrderCode (encodeFields flip fields) (fun v w => swapIf flip (compareFields fields v w))
  | .nil => OrderCode.unit.congr (fun _ => rfl) fun _ _ => by cases flip <;> rfl
  | .cons field fields =>
      ((child_code (payload_code flip field) (encodeNull flip field)).pair
        (fields_code flip fields)).congr (fun _ => rfl)
        fun v w => swapIf_then flip _ _

end

/-! ## Rows -/

theorem column_code (c : SortColumn) : OrderCode (encodeColumn c) (compareColumn c) := by
  obtain ⟨t, descending, nullsFirst⟩ := c
  have hpayload := payload_code descending t
  cases nullsFirst with
  | true =>
      have ho : Ordering.lt ≠ .eq := by decide
      exact OrderCode.option hpayload ho rfl rfl (encodeNull descending t)
  | false =>
      have ho : Ordering.gt ≠ .eq := by decide
      exact OrderCode.option hpayload ho rfl rfl (encodeNull descending t)

theorem keyBytes_code : (cs : List SortColumn) → OrderCode (keyBytes cs) (compareRows cs)
  | [] => OrderCode.unit
  | c :: cs => (column_code c).pair (keyBytes_code cs)

mutual

theorem eq_of_comparePayload : (t : SortType) → (v w : t.Payload) →
    comparePayload t v w = .eq → v = w
  | .bool, v, w, h => by
      cases v <;> cases w <;> first | rfl | exact absurd h (by decide)
  | .integer _ _, _, _, h => Subtype.ext (compare_eq_iff_eq.mp h)
  | .varchar, _, _, h => Subtype.ext (eq_of_compareWords h)
  | .blob, _, _, h => eq_of_compareWords h
  | .struct fields, v, w, h => eq_of_compareFields fields v w h
  | .list child, _, _, h =>
      compareLists_eq (by decide)
        (fun _ _ hab => compareOptions_eq (by decide) (eq_of_comparePayload child) hab) h
  | .array child _, _, _, h =>
      Subtype.ext (compareLists_eq (by decide)
        (fun _ _ hab => compareOptions_eq (by decide) (eq_of_comparePayload child) hab) h)

theorem eq_of_compareFields : (fields : SortFields) → (v w : fields.Values) →
    compareFields fields v w = .eq → v = w
  | .nil, _, _, _ => rfl
  | .cons field fields, _, _, h => by
      obtain ⟨hfield, hfields⟩ := Ordering.then_eq_eq.mp h
      exact Prod.ext (compareOptions_eq (by decide) (eq_of_comparePayload field) hfield)
        (eq_of_compareFields fields _ _ hfields)

end

theorem eq_of_compareColumn (c : SortColumn) {v w : c.type.Value}
    (h : compareColumn c v w = .eq) : v = w := by
  refine compareOptions_eq ?_ (fun a b hab => ?_) h
  · split <;> decide
  · refine eq_of_comparePayload c.type a b ?_
    split at hab
    · exact Ordering.swap_eq_eq.mp hab
    · exact hab

theorem eq_of_compareRows : (cs : List SortColumn) → (r s : SortRow cs) →
    compareRows cs r s = .eq → r = s
  | [], _, _, _ => rfl
  | c :: cs, _, _, h => by
      obtain ⟨hc, hcs⟩ := Ordering.then_eq_eq.mp h
      exact Prod.ext (eq_of_compareColumn c hc) (eq_of_compareRows cs _ _ hcs)

/-! ## BIGINT keys -/

theorem length_encodeInteger (signed : Bool) (width : IntWidth) (v : Int) :
    (encodeInteger signed width v).length = width.bytes := by
  have hsigned (n : Nat) (v : Int) : (encodeSigned (n + 1) v).length = n + 1 := by
    rw [encodeSigned, flipSign_storeSwapped, length_storeSwapped]
  cases width <;> cases signed <;> simp [encodeInteger, IntWidth.bytes, hsigned]

/-- A value of a constant size takes that size, a NULL no byte behind its validity byte. -/
theorem length_encodeColumn {c : SortColumn} {size : Nat} (h : c.type.constantSize = some size)
    (v : c.type.Value) : (encodeColumn c v).length ≤ size + 1 := by
  obtain ⟨t, descending, nullsFirst⟩ := c
  cases t with
  | bool =>
      obtain rfl : 1 = size := Option.some.inj h
      cases v with
      | none => simp [encodeColumn, encodeNull]
      | some v => exact Nat.le_of_eq (by simp [encodeColumn, encodePayload, encodeConstant_eq])
  | integer signed width =>
      obtain rfl : width.bytes = size := Option.some.inj h
      cases v with
      | none => simp [encodeColumn, encodeNull]
      | some v =>
          exact Nat.le_of_eq
            (by simp [encodeColumn, encodePayload, encodeConstant_eq, length_encodeInteger])
  | varchar => cases h
  | blob => cases h
  | struct => cases h
  | list => cases h
  | array => cases h

theorem length_keyBytes : {cs : List SortColumn} → {size : Nat} →
    constantKeySize cs = some size → ∀ row : SortRow cs, (keyBytes cs row).length ≤ size
  | [], _, _, _ => Nat.zero_le _
  | c :: cs, size, h, row => by
      simp only [constantKeySize, Option.bind_eq_bind, Option.bind_eq_some_iff] at h
      obtain ⟨first, hfirst, rest, hrest, hsize⟩ := h
      have hsize : first + 1 + rest = size := Option.some.inj hsize
      have hcolumn := length_encodeColumn hfirst row.1
      have hcolumns := length_keyBytes hrest row.2
      rw [keyBytes, List.length_append]
      omega

def paddedKey (cs : List SortColumn) (row : SortRow cs) : List UInt8 :=
  keyBytes cs row ++ List.replicate (8 - (keyBytes cs row).length) 0

theorem length_paddedKey {cs : List SortColumn} {row : SortRow cs}
    (h : (keyBytes cs row).length ≤ 8) : (paddedKey cs row).length = 8 := by
  rw [paddedKey, List.length_append, List.length_replicate]
  omega

theorem compare_paddedKey (cs : List SortColumn) (r s : SortRow cs) :
    compareWords (paddedKey cs r) (paddedKey cs s) = compareRows cs r s := by
  rw [paddedKey, paddedKey, keyBytes_code cs r s]
  by_cases heq : compareRows cs r s = .eq
  · obtain rfl := eq_of_compareRows cs r s heq
    rw [heq, compareWords_self]
    rfl
  · exact then_of_ne heq _

theorem head_paddedKey (cs : List SortColumn) (row : SortRow cs) :
    ∃ b z, paddedKey cs row = b :: z ∧ b.toNat ≤ 2 := by
  cases cs with
  | nil => exact ⟨0, List.replicate 7 0, rfl, by decide⟩
  | cons c cs =>
      obtain ⟨v, row⟩ := row
      have hfirst : nullFirstByte.toNat ≤ 2 := by decide
      have hlast : nullLastByte.toNat ≤ 2 := by decide
      cases v with
      | none =>
          refine ⟨_, _, rfl, ?_⟩
          split
          · exact hfirst
          · exact hlast
      | some v =>
          refine ⟨_, _, rfl, ?_⟩
          split
          · exact hlast
          · exact hfirst

theorem toInt64_paddedKey {cs : List SortColumn} {row : SortRow cs}
    (h : (keyBytes cs row).length ≤ 8) :
    toInt64 (bswap 8 (loadWord (paddedKey cs row))) = loadWord (paddedKey cs row).reverse := by
  have hlen := length_paddedKey h
  rw [bswap_loadWord hlen, toInt64]
  obtain ⟨b, z, hpad, hb⟩ := head_paddedKey cs row
  rw [hpad, List.length_cons] at hlen
  have hz := loadWord_lt z.reverse
  have h7 : z.length = 7 := by omega
  rw [List.length_reverse, h7] at hz
  have hlt : loadWord (paddedKey cs row).reverse < 2 ^ 63 := by
    rw [hpad, List.reverse_cons, loadWord_append, List.length_reverse, h7]
    simp only [loadWord_cons, loadWord_nil]
    omega
  rw [if_pos hlt]

theorem createSortKey_cases (cs : List SortColumn) :
    (∀ row, createSortKey cs row = .blob (keyBytes cs row)) ∨
      ∀ row, (keyBytes cs row).length ≤ 8 ∧
        createSortKey cs row = .bigint (loadWord (paddedKey cs row).reverse) := by
  cases hsize : constantKeySize cs with
  | none =>
      refine .inl fun row => ?_
      simp only [createSortKey, hsize]
  | some size =>
      by_cases h8 : size ≤ 8
      · refine .inr fun row => ?_
        have hlen : (keyBytes cs row).length ≤ 8 := (length_keyBytes hsize row).trans h8
        refine ⟨hlen, ?_⟩
        rw [← toInt64_paddedKey hlen]
        simp only [createSortKey, hsize, if_pos h8]
        rfl
      · refine .inl fun row => ?_
        simp only [createSortKey, hsize, if_neg h8]

theorem compare_createSortKey (cs : List SortColumn) (r s : SortRow cs) :
    (createSortKey cs r).compare (createSortKey cs s) = compareRows cs r s := by
  rcases createSortKey_cases cs with h | h
  · rw [h r, h s]
    exact (keyBytes_code cs).compare_eq r s
  · obtain ⟨hr, hrkey⟩ := h r
    obtain ⟨hs, hskey⟩ := h s
    have hlen : (paddedKey cs r).length = (paddedKey cs s).length := by
      rw [length_paddedKey hr, length_paddedKey hs]
    rw [hrkey, hskey, ← compare_paddedKey, compare_loadWord_reverse hlen]
    exact compare_congr (by omega) (by omega)

theorem sortKey_compare_self (k : SortKey) : k.compare k = .eq := by
  cases k with
  | bigint v => exact compare_eq_iff_eq.mpr rfl
  | blob x => exact compareWords_self x

/-- The keys of two rows compare as ORDER BY compares the rows, equal keys belong to equal rows,
and no key is a proper prefix of another. -/
theorem sortKey_orders_rows (cs : List SortColumn) (r s : SortRow cs) :
    (createSortKey cs r).compare (createSortKey cs s) = compareRows cs r s ∧
      (createSortKey cs r = createSortKey cs s ↔ r = s) ∧
      ¬ (createSortKey cs r).ProperPrefix (createSortKey cs s) := by
  refine ⟨compare_createSortKey cs r s, ⟨fun h => ?_, fun h => by rw [h]⟩, ?_⟩
  · refine eq_of_compareRows cs r s ?_
    rw [← compare_createSortKey, h, sortKey_compare_self]
  · rcases createSortKey_cases cs with h | h
    · rw [h r, h s]
      rintro ⟨hp, hne⟩
      exact hne ((keyBytes_code cs).eq_of_isPrefix hp)
    · rw [(h r).2, (h s).2]
      exact id

end MiniDuck
