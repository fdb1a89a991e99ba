import MiniDuck.ByteBuffer
import MiniDuck.SortKey

/-!
# Writing sort keys into their buffers

The encoders write words into a buffer that `getSortKeyLength` has sized.
The blob encoder stores whole words before it knows whether a byte of them
has to be escaped. `payload_writes` says that every encoder writes what
`encodePayload` lists and no byte more. The lengths are computed in a pass
of their own, for blobs by counting flags word by word
(`getEncodeLengthBlob_eq`); `getSortKeyLength_eq` compares them with what is
written. They differ only for the NULLs of columns of a fixed size.
-/

namespace MiniDuck

open SortKeyWord Writer

/-! ## Encoders -/

def storeEach (bytes : List UInt8) : Writer UInt8 := Writer.all (bytes.map fun b => storeAt [b])

/-- Flips `n` bytes in place, eight at a time and then one by one. -/
def flipInPlace (n : Nat) : Writer UInt8 :=
  (mapInPlace 8 (fun bytes => storeBytes 8 (SwarWord.notWord (loadWord bytes))) (n / 8)).andThen
    (mapInPlace 1 (·.map (~~~ ·)) (n % 8))

/-- `SortKeyConstantOperator::Encode`: the bytes of `Radix::EncodeData` are flipped in place. -/
def encodeConstantAt (flip : Bool) (bytes : List UInt8) : Writer UInt8 :=
  if flip then overshoot bytes 0 (flipInPlace bytes.length) else storeAt bytes

/-- The loops of `SortKeyVarcharOperator::Encode`. -/
def mapWordsAt (f : Nat → Nat) (g : UInt8 → UInt8) : List UInt8 → Writer UInt8
  | a :: b :: c :: d :: a' :: b' :: c' :: d' :: rest =>
      (storeAt (storeBytes 8 (f (loadWord [a, b, c, d, a', b', c', d'])))).andThen
        (mapWordsAt f g rest)
  | bytes => storeEach (bytes.map g)

/-- `SortKeyVarcharOperator::Encode`. -/
def encodeVarcharAt (flip : Bool) (input : List UInt8) : Writer UInt8 :=
  (mapWordsAt (fun w => flipWord flip (incrementBytes w)) (fun b => flipByte flip (b + 1))
    input).andThen (storeAt [flipByte flip stringDelimiter])

/-- The last loop of `SortKeyBlobOperator::Encode`. -/
def encodeBlobBytesAt (flip : Bool) (input : List UInt8) : Writer UInt8 :=
  Writer.all (input.map fun b =>
    if b ≤ blobEscapeCharacter then
      (storeAt [flipByte flip blobEscapeCharacter]).andThen (storeAt [flipByte flip b])
    else storeAt [flipByte flip b])

/-- The loops over the blocks and words of `SortKeyBlobOperator::Encode`. -/
def encodeBlobLoopAt (flip : Bool) : Nat → List UInt8 → Writer UInt8
  | 0, input => encodeBlobBytesAt flip input
  | fuel + 1, input =>
      let storeWord (i : Nat) : Writer UInt8 :=
        storeAt (storeBytes 8 (flipWord flip (loadWord ((input.drop (8 * i)).take 8))))
      if input.length < 8 then encodeBlobBytesAt flip input
      else if 32 ≤ input.length ∧ hasEscapes 4 input = false then
        (storeWord 0).andThen <| (storeWord 1).andThen <| (storeWord 2).andThen <|
          (storeWord 3).andThen <| encodeBlobLoopAt flip fuel (input.drop 32)
      else
        let word := loadWord (input.take 8)
        let escapes := escapedBytes word
        if escapes = 0 then
          (storeAt (storeBytes 8 (flipWord flip word))).andThen
            (encodeBlobLoopAt flip fuel (input.drop 8))
        else
          let escapePos := SwarWord.firstFlagged escapes
          overshoot (storeBytes 8 (flipWord flip word)) escapePos <|
            (storeAt [flipByte flip blobEscapeCharacter]).andThen <|
            (storeAt (((input.drop escapePos).take 1).map (flipByte flip))).andThen <|
            encodeBlobLoopAt flip fuel (input.drop (escapePos + 1))

/-- `SortKeyBlobOperator::Encode`. -/
def encodeBlobAt (flip : Bool) (input : List UInt8) : Writer UInt8 :=
  (encodeBlobLoopAt flip input.length input).andThen (storeAt [flipByte flip stringDelimiter])

def constructValue {α : Type} (nullByte validByte : UInt8) (null : Writer UInt8)
    (payload : α → Writer UInt8) (v : Option α) : Writer UInt8 :=
  v.elim ((storeAt [nullByte]).andThen null) fun v => (storeAt [validByte]).andThen (payload v)

mutual

/-- `ConstructSortKeyRecursive` behind the validity byte of a NULL. -/
def constructNull (flip : Bool) : SortType → Writer UInt8
  | .struct fields => constructNullFields flip fields
  | .array child size =>
      (Writer.all (List.replicate size
        ((storeAt [childNullByte flip]).andThen (constructNull flip child)))).andThen
        (storeAt [flipByte flip listDelimiter])
  | _ => skip

def constructNullFields (flip : Bool) : SortFields → Writer UInt8
  | .nil => skip
  | .cons field fields =>
      ((storeAt [childNullByte flip]).andThen (constructNull flip field)).andThen
        (constructNullFields flip fields)

end

mutual

/-- `ConstructSortKeyRecursive` behind the validity byte of a value. -/
def constructPayload (flip : Bool) : (t : SortType) → t.Payload → Writer UInt8
  | .bool, v => encodeConstantAt flip [bif v then 1 else 0]
  | .integer signed width, v => encodeConstantAt flip (encodeInteger signed width v.1)
  | .varchar, s => encodeVarcharAt flip s.1
  | .blob, s => encodeBlobAt flip s
  | .struct fields, vs => constructFields flip fields vs
  | .list child, l =>
      (Writer.all (l.map (constructValue (childNullByte flip) (childValidByte flip)
        (constructNull flip child) (constructPayload flip child)))).andThen
        (storeAt [flipByte flip listDelimiter])
  | .array child _, l =>
      (Writer.all (l.1.map (constructValue (childNullByte flip) (childValidByte flip)
        (constructNull flip child) (constructPayload flip child)))).andThen
        (storeAt [flipByte flip listDelimiter])

def constructFields (flip : Bool) : (fields : SortFields) → fields.Values → Writer UInt8
  | .nil, _ => skip
  | .cons field fields, vs =>
      (constructValue (childNullByte flip) (childValidByte flip) (constructNull flip field)
        (constructPayload flip field) vs.1).andThen (constructFields flip fields vs.2)

end

def SortColumn.nullByte (c : SortColumn) : UInt8 := if c.nullsFirst then nullFirstByte else nullLastByte

def SortColumn.validByte (c : SortColumn) : UInt8 :=
  if c.nullsFirst then nullLastByte else nullFirstByte

/-- `ConstructSortKey`, one column after the other. -/
def constructSortKey : (cs : List SortColumn) → SortRow cs → Writer UInt8
  | [], _ => skip
  | c :: cs, row =>
      (constructValue c.nullByte c.validByte (constructNull c.descending c.type)
        (constructPayload c.descending c.type) row.1).andThen (constructSortKey cs row.2)

/-! ## What the encoders write -/

theorem Writes.congr {w : Writer UInt8} {x y : List UInt8} (h : Writes w x) (hxy : x = y) :
    Writes w y :=
  hxy ▸ h

theorem storeEach_writes (bytes : List UInt8) : Writes (storeEach bytes) bytes :=
  (Writes.all (fun b => Writes.storeAt [b]) bytes).congr (by simp)

theorem mapWordsAt_writes (f : Nat → Nat) (g : UInt8 → UInt8) (bytes : List UInt8) :
    Writes (mapWordsAt f g bytes) (mapWords f g bytes) := by
  fun_induction mapWordsAt f g bytes with
  | case1 a b c d a' b' c' d' rest ih => exact (Writes.storeAt _).andThen ih
  | case2 bytes hshort =>
      rw [mapWords]
      · exact storeEach_writes _
      · exact hshort

theorem encodeVarcharAt_writes (flip : Bool) (input : List UInt8) :
    Writes (encodeVarcharAt flip input) (encodeVarchar flip input) :=
  (mapWordsAt_writes _ _ input).andThen (Writes.storeAt _)

theorem encodeBlobBytesAt_writes (flip : Bool) (input : List UInt8) :
    Writes (encodeBlobBytesAt flip input) (encodeBlobBytes flip input) := by
  refine Writes.all (fun b => ?_) input
  split_ifs
  · exact (Writes.storeAt _).andThen (Writes.storeAt _)
  · exact Writes.storeAt _

theorem length_le_encodeBlobBytes (flip : Bool) (input : List UInt8) :
    input.length ≤ (encodeBlobBytes flip input).length := by
  induction input with
  | nil => exact Nat.le_refl _
  | cons b input ih =>
      have hcons := encodeBlobBytes_append flip [b] input
      rw [List.singleton_append] at hcons
      have hone : 1 ≤ (encodeBlobBytes flip [b]).length := by
        by_cases hb : b ≤ blobEscapeCharacter <;> simp [encodeBlobBytes, hb]
      rw [hcons, List.length_append, List.length_cons]
      omega

/-- The overshooting loops write no byte more than the loop over the bytes. -/
theorem encodeBlobLoopAt_writes (flip : Bool) (fuel : Nat) (input : List UInt8) :
    Writes (encodeBlobLoopAt flip fuel input) (encodeBlobLoop flip fuel input) := by
  induction fuel generalizing input with
  | zero => exact encodeBlobBytesAt_writes flip input
  | succ fuel ih =>
      rw [encodeBlobLoopAt, encodeBlobLoop]
      by_cases hshort : input.length < 8
      · rw [if_pos hshort, if_pos hshort]
        exact encodeBlobBytesAt_writes flip input
      rw [if_neg hshort, if_neg hshort]
      by_cases hblock : 32 ≤ input.length ∧ hasEscapes 4 input = false
      · rw [if_pos hblock, if_pos hblock]
        refine ((Writes.storeAt _).andThen <| (Writes.storeAt _).andThen <|
          (Writes.storeAt _).andThen <| (Writes.storeAt _).andThen (ih (input.drop 32))).congr ?_
        simp only [List.append_assoc, Nat.mul_zero, List.drop_zero, Nat.mul_one, Nat.reduceMul]
      rw [if_neg hblock, if_neg hblock]
      by_cases hzero : escapedBytes (loadWord (input.take 8)) = 0
      · simp only [if_pos hzero]
        exact (Writes.storeAt _).andThen (ih _)
      · simp only [if_neg hzero]
        have htake : (input.take 8).length = 8 := by
          rw [List.length_take]
          omega
        have hany : (input.take 8).any escapes = true := by
          by_contra hno
          exact hzero ((escapedBytes_eq_zero htake).mpr (by simpa using hno))
        rw [firstFlagged_escapedBytes htake hany]
        obtain ⟨i, b, hfind, h8, hsplit, -, -⟩ := findIdx_escapes htake hany
        have hone : ((input.drop i).take 1).length = 1 := by
          rw [hsplit]
          rfl
        have hrest := length_le_encodeBlobBytes flip (input.drop (i + 1))
        rw [← encodeBlobLoop_eq flip fuel, List.length_drop] at hrest
        rw [hfind, List.append_assoc, List.append_assoc]
        refine Writes.overshoot ((Writes.storeAt _).andThen <| (Writes.storeAt _).andThen (ih _))
          ?_ ?_
        · rw [length_storeBytes]
          omega
        · simp only [length_storeBytes, List.length_append, List.length_singleton,
            List.length_map, hone]
          omega

theorem encodeBlobAt_writes (flip : Bool) (input : List UInt8) :
    Writes (encodeBlobAt flip input) (encodeBlob flip input) :=
  (encodeBlobLoopAt_writes flip input.length input).andThen (Writes.storeAt _)

theorem flipInPlace_updates (bytes : List UInt8) :
    Updates (flipInPlace bytes.length) bytes (bytes.map (~~~ ·)) := by
  have hword : ∀ x : List UInt8, x.length = 8 →
      storeBytes 8 (SwarWord.notWord (loadWord x)) = x.map (~~~ ·) := by
    intro x hx
    have := storeBytes_flipWord true hx
    simpa [flipWord] using this
  have hlen : (bytes.take (8 * (bytes.length / 8))).length = 8 * (bytes.length / 8) := by
    rw [List.length_take]
    omega
  have hrest : (bytes.drop (8 * (bytes.length / 8))).length = 1 * (bytes.length % 8) := by
    rw [List.length_drop]
    omega
  have hboth := (Updates.mapInPlace hword _ hlen).andThen
    (Updates.mapInPlace (g := (~~~ ·)) (fun _ _ => rfl) _ hrest)
  rw [← List.map_append, List.take_append_drop] at hboth
  exact hboth

theorem encodeConstantAt_writes (flip : Bool) (bytes : List UInt8) :
    Writes (encodeConstantAt flip bytes) (encodeConstant flip bytes) := by
  rw [encodeConstant_eq]
  cases flip with
  | false => simpa [encodeConstantAt] using Writes.storeAt bytes
  | true => exact (flipInPlace_updates bytes).writes

theorem constructValue_writes {α : Type} {nullByte validByte : UInt8} {null : Writer UInt8}
    {payload : α → Writer UInt8} {z : List UInt8} {encode : α → List UInt8}
    (hnull : Writes null z) (hpayload : ∀ v, Writes (payload v) (encode v)) (v : Option α) :
    Writes (constructValue nullByte validByte null payload v)
      (v.elim (nullByte :: z) fun v => validByte :: encode v) := by
  cases v with
  | none => exact (Writes.storeAt [nullByte]).andThen hnull
  | some v => exact (Writes.storeAt [validByte]).andThen (hpayload v)

mutual

theorem null_writes (flip : Bool) : (t : SortType) →
    Writes (constructNull flip t) (encodeNull flip t)
  | .struct fields => nullFields_writes flip fields
  | .array child size => by
      have hchild := (Writes.storeAt [childNullByte flip]).andThen (null_writes flip child)
      have hall := Writes.all (fun _ : Unit => hchild) (List.replicate size ())
      rw [List.map_replicate, List.flatMap_replicate] at hall
      exact hall.andThen (Writes.storeAt _)
  | .bool => Writes.skip
  | .integer _ _ => Writes.skip
  | .varchar => Writes.skip
  | .blob => Writes.skip
  | .list _ => Writes.skip

theorem nullFields_writes (flip : Bool) : (fields : SortFields) →
    Writes (constructNullFields flip fields) (encodeNullFields flip fields)
  | .nil => Writes.skip
  | .cons field fields =>
      ((Writes.storeAt [childNullByte flip]).andThen (null_writes flip field)).andThen
        (nullFields_writes flip fields)

end

mutual

theorem payload_writes (flip : Bool) : (t : SortType) → (v : t.Payload) →
    Writes (constructPayload flip t v) (encodePayload flip t v)
  | .bool, _ => encodeConstantAt_writes flip _
  | .integer _ _, _ => encodeConstantAt_writes flip _
  | .varchar, s => encodeVarcharAt_writes flip s.1
  | .blob, s => encodeBlobAt_writes flip s
  | .struct fields, vs => fields_writes flip fields vs
  | .list child, l =>
      (Writes.all (constructValue_writes (null_writes flip child) (payload_writes flip child))
        l).andThen (Writes.storeAt _)
  | .array child _, l =>
      (Writes.all (constructValue_writes (null_writes flip child) (payload_writes flip child))
        l.1).andThen (Writes.storeAt _)

theorem fields_writes (flip : Bool) : (fields : SortFields) → (vs : fields.Values) →
    Writes (constructFields flip fields vs) (encodeFields flip fields vs)
  | .nil, _ => Writes.skip
  | .cons field fields, vs =>
      (constructValue_writes (null_writes flip field) (payload_writes flip field) vs.1).andThen
        (fields_writes flip fields vs.2)

end

theorem constructSortKey_writes : (cs : List SortColumn) → (row : SortRow cs) →
    Writes (constructSortKey cs row) (keyBytes cs row)
  | [], _ => Writes.skip
  | c :: cs, row =>
      (constructValue_writes (null_writes c.descending c.type)
        (payload_writes c.descending c.type) row.1).andThen (constructSortKey_writes cs row.2)

/-! ## Lengths -/

def flagged : Nat → List UInt8 → Nat
  | 0, _ => 0
  | words + 1, input =>
      (escapedBytes (loadWord (input.take 8)) / 2 ^ 7 + flagged words (input.drop 8)) % 2 ^ 64

/-- The loops of `SortKeyBlobOperator::GetEncodeLength`: over blocks of four words, over words,
over bytes. -/
def escapedCharacters : Nat → List UInt8 → Nat
  | 0, input => input.countP escapes
  | fuel + 1, input =>
      if 32 ≤ input.length then
        SwarWord.sumBytes (flagged 4 input) + escapedCharacters fuel (input.drop 32)
      else if 8 ≤ input.length then
        SwarWord.countFlagged (escapedBytes (loadWord (input.take 8))) +
          escapedCharacters fuel (input.drop 8)
      else input.countP escapes

/-- `SortKeyBlobOperator::GetEncodeLength`. -/
def getEncodeLengthBlob (input : List UInt8) : Nat :=
  input.length + escapedCharacters input.length input + 1

mutual

/-- `GetSortKeyLengthRecursive` behind the validity byte of a NULL. -/
def nullLength : SortType → Nat
  | .struct fields => nullFieldsLength fields
  | .array child size => (List.replicate size (1 + nullLength child)).sum + 1
  | _ => 0

def nullFieldsLength : SortFields → Nat
  | .nil => 0
  | .cons field fields => (1 + nullLength field) + nullFieldsLength fields

end

mutual

/-- `GetSortKeyLengthRecursive` behind the validity byte of a value. -/
def payloadLength : (t : SortType) → t.Payload → Nat
  | .bool, _ => 1
  | .integer _ width, _ => width.bytes
  | .varchar, s => s.1.length + 1
  | .blob, s => getEncodeLengthBlob s
  | .struct fields, vs => fieldsLength fields vs
  | .list child, l =>
      (l.map fun v => v.elim (1 + nullLength child) fun v => 1 + payloadLength child v).sum + 1
  | .array child _, l =>
      (l.1.map fun v => v.elim (1 + nullLength child) fun v => 1 + payloadLength child v).sum + 1

def fieldsLength : (fields : SortFields) → fields.Values → Nat
  | .nil, _ => 0
  | .cons field fields, vs =>
      (vs.1.elim (1 + nullLength field) fun v => 1 + payloadLength field v) +
        fieldsLength fields vs.2

end

/-- `GetSortKeyLength`: a column of a fixed size counts the same in every row. -/
def getSortKeyLength : (cs : List SortColumn) → SortRow cs → Nat
  | [], _ => 0
  | c :: cs, row =>
      (match c.type.constantSize with
        | some size => 1 + size
        | none => row.1.elim (1 + nullLength c.type) fun v => 1 + payloadLength c.type v) +
        getSortKeyLength cs row.2

/-- What is reserved for NULLs of a fixed size and not written. -/
def reservedLength : (cs : List SortColumn) → SortRow cs → Nat
  | [], _ => 0
  | c :: cs, row =>
      (match c.type.constantSize, row.1 with
        | some size, none => size
        | _, _ => 0) + reservedLength cs row.2

theorem escapedBytes_digits {bytes : List UInt8} (h : bytes.length = 8) :
    escapedBytes (loadWord bytes) / 2 ^ 7 =
      SwarWord.loadDigits (bytes.map fun b => (escapes b).toNat) := by
  rw [escapedBytes_loadWord h]
  exact SwarWord.loadWord_flags escapes bytes

theorem sum_zipWith_add : {xs ys : List Nat} → xs.length = ys.length →
    (List.zipWith (· + ·) xs ys).sum = xs.sum + ys.sum
  | [], [], _ => rfl
  | [], _ :: _, h => by simp at h
  | _ :: _, [], h => by simp at h
  | x :: xs, y :: ys, h => by
      have hrec := @sum_zipWith_add xs ys (by simpa using h)
      simp only [List.zipWith_cons_cons, List.sum_cons, hrec]
      omega

/-- The digits of the sum over some words: each counts the flags at its place. -/
theorem flagged_eq (words : Nat) (hwords : words ≤ 255) (input : List UInt8)
    (hlen : 8 * words ≤ input.length) :
    ∃ digits, digits.length = 8 ∧ (∀ d ∈ digits, d ≤ words) ∧
      flagged words input = SwarWord.loadDigits digits ∧
      digits.sum = (input.take (8 * words)).countP escapes := by
  induction words generalizing input with
  | zero =>
      exact ⟨List.replicate 8 0, rfl, fun d hd => Nat.le_of_eq (List.eq_of_mem_replicate hd), rfl,
        rfl⟩
  | succ words ih =>
      obtain ⟨digits, hlen8, hle, hflagged, hsum⟩ := ih (by omega) (input.drop 8)
        (by rw [List.length_drop]; omega)
      have htake : (input.take 8).length = 8 := by
        rw [List.length_take]
        omega
      have hsplit : input.take (8 * (words + 1)) =
          input.take 8 ++ (input.drop 8).take (8 * words) := by
        rw [← List.take_add, Nat.mul_succ, Nat.add_comm]
      let first := (input.take 8).map fun b => (escapes b).toNat
      have hsame : first.length = digits.length := by
        rw [List.length_map, htake, hlen8]
      have hlen' : (List.zipWith (· + ·) first digits).length = 8 := by
        rw [List.length_zipWith, hsame, Nat.min_self, hlen8]
      have hbound : ∀ d ∈ List.zipWith (· + ·) first digits, d ≤ words + 1 := by
        intro d hd
        rw [← List.map_uncurry_zip_eq_zipWith] at hd
        obtain ⟨⟨x, y⟩, hxy, rfl⟩ := List.mem_map.1 hd
        obtain ⟨hx, hy⟩ := List.of_mem_zip hxy
        obtain ⟨b, -, rfl⟩ := List.mem_map.1 hx
        have hb := Bool.toNat_le (escapes b)
        have := hle y hy
        show (escapes b).toNat + y ≤ words + 1
        omega
      refine ⟨List.zipWith (· + ·) first digits, hlen', hbound, ?_, ?_⟩
      · have hlt := SwarWord.loadDigits_lt fun d hd => (hbound d hd).trans hwords
        rw [hlen'] at hlt
        rw [flagged, hflagged, escapedBytes_digits htake, SwarWord.loadDigits_add hsame]
        exact Nat.mod_eq_of_lt hlt
      · rw [sum_zipWith_add hsame, hsum, hsplit, List.countP_append, SwarWord.sum_toNat]

theorem escapedCharacters_eq (fuel : Nat) (input : List UInt8) :
    escapedCharacters fuel input = input.countP escapes := by
  induction fuel generalizing input with
  | zero => rfl
  | succ fuel ih =>
      rw [escapedCharacters]
      by_cases h32 : 32 ≤ input.length
      · obtain ⟨digits, hlen, -, hflagged, hsum⟩ := flagged_eq 4 (by decide) input h32
        have hle : digits.sum ≤ 255 := by
          rw [hsum]
          have := List.countP_le_length (p := escapes) (l := input.take (8 * 4))
          rw [List.length_take] at this
          omega
        rw [if_pos h32, ih, hflagged, SwarWord.sumBytes_loadDigits hlen hle, hsum,
          ← List.countP_append, List.take_append_drop]
      · rw [if_neg h32]
        by_cases h8 : 8 ≤ input.length
        · have htake : (input.take 8).length = 8 := by
            rw [List.length_take]
            omega
          have hle : (input.take 8).countP escapes ≤ 255 := by
            have := List.countP_le_length (p := escapes) (l := input.take 8)
            omega
          rw [if_pos h8, ih, SwarWord.countFlagged, escapedBytes_digits htake,
            SwarWord.sumBytes_loadDigits (by rw [List.length_map, htake])
              (by rw [SwarWord.sum_toNat]; exact hle),
            SwarWord.sum_toNat, ← List.countP_append, List.take_append_drop]
        · rw [if_neg h8]

theorem length_encodeBlobBytes (flip : Bool) (input : List UInt8) :
    (encodeBlobBytes flip input).length = input.length + input.countP escapes := by
  induction input with
  | nil => rfl
  | cons b input ih =>
      have hcons := encodeBlobBytes_append flip [b] input
      rw [List.singleton_append] at hcons
      have hone : (encodeBlobBytes flip [b]).length = 1 + (if escapes b then 1 else 0) := by
        by_cases hb : b ≤ blobEscapeCharacter <;> simp [encodeBlobBytes, escapes, hb]
      rw [hcons, List.length_append, ih, hone, List.length_cons, List.countP_cons]
      omega

theorem getEncodeLengthBlob_eq (flip : Bool) (input : List UInt8) :
    getEncodeLengthBlob input = (encodeBlob flip input).length := by
  rw [getEncodeLengthBlob, escapedCharacters_eq, encodeBlob_eq, List.length_append,
    length_encodeBlobBytes]
  rfl

theorem length_elim {α : Type} {f : α → List UInt8} {n : α → Nat} (hf : ∀ v, (f v).length = n v)
    (nullByte validByte : UInt8) {z : List UInt8} {k : Nat} (hz : z.length = k) (v : Option α) :
    (v.elim (nullByte :: z) fun v => validByte :: f v).length =
      v.elim (1 + k) fun v => 1 + n v := by
  cases v with
  | none => simp [hz, Nat.add_comm]
  | some v => simp [hf, Nat.add_comm]

mutual

theorem length_encodeNull (flip : Bool) : (t : SortType) →
    (encodeNull flip t).length = nullLength t
  | .struct fields => length_encodeNullFields flip fields
  | .array child size => by
      rw [encodeNull, nullLength, List.length_append, List.length_flatten, List.map_replicate,
        List.length_cons, length_encodeNull flip child, Nat.add_comm 1]
      rfl
  | .bool => rfl
  | .integer _ _ => rfl
  | .varchar => rfl
  | .blob => rfl
  | .list _ => rfl

theorem length_encodeNullFields (flip : Bool) : (fields : SortFields) →
    (encodeNullFields flip fields).length = nullFieldsLength fields
  | .nil => rfl
  | .cons field fields => by
      rw [encodeNullFields, nullFieldsLength, List.length_append, List.length_cons,
        length_encodeNull flip field, length_encodeNullFields flip fields, Nat.add_comm 1]

end

theorem length_children {α : Type} {f : α → List UInt8} {n : α → Nat}
    (hf : ∀ v, (f v).length = n v) (nullByte validByte delimiter : UInt8) {z : List UInt8} {k : Nat}
    (hz : z.length = k) (l : List (Option α)) :
    ((l.flatMap fun v => v.elim (nullByte :: z) fun v => validByte :: f v) ++ [delimiter]).length =
      (l.map fun v => v.elim (1 + k) fun v => 1 + n v).sum + 1 := by
  rw [List.length_append, List.length_flatMap]
  simp only [length_elim hf nullByte validByte hz]
  rfl

mutual

theorem length_encodePayload (flip : Bool) : (t : SortType) → (v : t.Payload) →
    (encodePayload flip t v).length = payloadLength t v
  | .bool, _ => by
      rw [encodePayload, encodeConstant_eq]
      rfl
  | .integer signed width, v => by
      rw [encodePayload, encodeConstant_eq, List.length_map, length_encodeInteger]
      rfl
  | .varchar, s => by
      rw [encodePayload, encodeVarchar_eq, List.length_map, List.length_append, List.length_map]
      rfl
  | .blob, s => (getEncodeLengthBlob_eq flip s).symm
  | .struct fields, vs => length_encodeFields flip fields vs
  | .list child, l =>
      length_children (length_encodePayload flip child) _ _ _ (length_encodeNull flip child) l
  | .array child _, l =>
      length_children (length_encodePayload flip child) _ _ _ (length_encodeNull flip child) l.1

theorem length_encodeFields (flip : Bool) : (fields : SortFields) → (vs : fields.Values) →
    (encodeFields flip fields vs).length = fieldsLength fields vs
  | .nil, _ => rfl
  | .cons field fields, vs => by
      rw [encodeFields, fieldsLength, List.length_append,
        length_elim (length_encodePayload flip field) _ _ (length_encodeNull flip field),
        length_encodeFields flip fields vs.2]

end

theorem lengths_of_constantSize {t : SortType} {size : Nat} (h : t.constantSize = some size) :
    nullLength t = 0 ∧ ∀ v : t.Payload, payloadLength t v = size := by
  cases t with
  | bool => exact ⟨rfl, fun _ => Option.some.inj h⟩
  | integer signed width => exact ⟨rfl, fun _ => Option.some.inj h⟩
  | varchar | blob | struct | list | array => exact absurd h nofun

/-- The computed length is the number of the bytes written and of the bytes reserved. -/
theorem getSortKeyLength_eq : (cs : List SortColumn) → (row : SortRow cs) →
    getSortKeyLength cs row = (keyBytes cs row).length + reservedLength cs row
  | [], _ => rfl
  | c :: cs, row => by
      have hlen : (encodeColumn c row.1).length =
          row.1.elim (1 + nullLength c.type) fun v => 1 + payloadLength c.type v :=
        length_elim (length_encodePayload c.descending c.type) _ _
          (length_encodeNull c.descending c.type) row.1
      rw [getSortKeyLength, keyBytes, reservedLength, List.length_append, hlen,
        getSortKeyLength_eq cs row.2]
      cases hsize : c.type.constantSize with
      | none => simp only [Nat.zero_add, Nat.add_assoc]
      | some size =>
          obtain ⟨hnull, hpayload⟩ := lengths_of_constantSize hsize
          cases row.1 with
          | none =>
              simp only [Option.elim_none, hnull]
              omega
          | some v =>
              simp only [Option.elim_some, hpayload]
              omega

end MiniDuck
