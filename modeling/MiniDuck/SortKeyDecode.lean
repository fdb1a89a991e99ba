import MiniDuck.RadixDecode
import MiniDuck.SortKeyWrites

/-!
# Decoding sort keys

`decodeSortKey` reads the columns off a key one after the other. Strings and
blobs end at the delimiter, and a list is read element by element until the
byte at the position is the delimiter. The validity bytes are 1 and 2 in
both orders, so that no element begins with it. `decodePayload_encode` says
that each type reads back what was written, whatever follows it, and
`sortKey_round_trip` puts lengths, writes and reads of a row together.
-/

namespace MiniDuck

open SortKeyWord

/-! ## Strings and blobs -/

/-- `SortKeyVarcharOperator::Decode`: the value and the bytes read. -/
def decodeVarchar (flip : Bool) (input : List UInt8) : List UInt8 × Nat :=
  let str := input.takeWhile fun b => decide (b ≠ flipByte flip stringDelimiter)
  (str.map fun b => flipByte flip b - 1, str.length + 1)

/-- The first loop of `SortKeyBlobOperator::Decode`: the length of the blob and the position of
the delimiter. -/
def scanBlob (flip : Bool) : List UInt8 → Nat × Nat
  | [] => (0, 0)
  | [b] =>
      if b = flipByte flip stringDelimiter then (0, 0)
      else if b = flipByte flip blobEscapeCharacter then (1, 2)
      else (1, 1)
  | b :: c :: rest =>
      if b = flipByte flip stringDelimiter then (0, 0)
      else if b = flipByte flip blobEscapeCharacter then
        ((scanBlob flip rest).1 + 1, (scanBlob flip rest).2 + 2)
      else ((scanBlob flip (c :: rest)).1 + 1, (scanBlob flip (c :: rest)).2 + 1)

def copyBlob (flip : Bool) : Nat → List UInt8 → List UInt8
  | n + 2, b :: rest =>
      if b = flipByte flip blobEscapeCharacter then
        flipByte flip (rest.headD 0) :: copyBlob flip n rest.tail
      else flipByte flip b :: copyBlob flip (n + 1) rest
  | 1, b :: rest =>
      if b = flipByte flip blobEscapeCharacter then [flipByte flip (rest.headD 0)]
      else [flipByte flip b]
  | _, _ => []

/-- The copy does not fit the blob that was allocated for it. -/
def blobOverrun : String := "result_pos < blob_len"

/-- `SortKeyBlobOperator::Decode`. -/
def decodeBlob (flip : Bool) (input : List UInt8) : Except String (List UInt8 × Nat) :=
  let (blobLen, pos) := scanBlob flip input
  let blob := copyBlob flip pos input
  if blob.length ≤ blobLen then .ok (blob, pos + 1) else .error blobOverrun

/-! ## Values -/

/-- `DecodeSortKeyData::ReadByte`: 0 behind the end. -/
def readByte : List UInt8 → UInt8 × List UInt8
  | [] => (0, [])
  | b :: rest => (b, rest)

def SortType.nullHasPayload : SortType → Bool
  | .struct _ => true
  | .array _ _ => true
  | _ => false

variable {α : Type}

/-- A value with its validity byte. The fields of a NULL struct and the elements of a NULL array
are read all the same. -/
def decodeValue (nullByte : UInt8) (nullHasPayload : Bool)
    (payload : List UInt8 → Except String (α × List UInt8)) (input : List UInt8) :
    Except String (Option α × List UInt8) :=
  let (validityByte, rest) := readByte input
  if validityByte = nullByte then
    if nullHasPayload then (payload rest).map fun (_, rest) => (none, rest) else .ok (none, rest)
  else (payload rest).map fun (v, rest) => (some v, rest)

/-- `RequireRemaining`. -/
def keyUnderrun : String := "required <= size - position"

/-- The loop of `DecodeSortKeyList`, for as many rounds as there are bytes. -/
def decodeListLoop (delimiter : UInt8) (element : List UInt8 → Except String (α × List UInt8)) :
    Nat → List UInt8 → Except String (List α × List UInt8)
  | 0, _ => .error keyUnderrun
  | fuel + 1, input =>
      match input with
      | [] => .error keyUnderrun
      | b :: rest =>
          if b = delimiter then .ok ([], rest)
          else
            match element input with
            | .error e => .error e
            | .ok (v, input) =>
                (decodeListLoop delimiter element fuel input).map fun (l, input) => (v :: l, input)

def arrayMismatch (found expected : Nat) : String :=
  "Failed to decode array - found " ++ toString found ++ " elements but expected " ++
    toString expected

/-- The loop of `DecodeSortKeyArray`, with room for so many elements. -/
def decodeArrayLoop (delimiter : UInt8) (element : List UInt8 → Except String (α × List UInt8))
    (size : Nat) : Nat → List UInt8 → Except String (List α × List UInt8)
  | _, [] => .error keyUnderrun
  | 0, b :: rest => if b = delimiter then .ok ([], rest) else .error (arrayMismatch (size + 1) size)
  | room + 1, b :: rest =>
      if b = delimiter then .ok ([], rest)
      else
        match element (b :: rest) with
        | .error e => .error e
        | .ok (v, input) =>
            (decodeArrayLoop delimiter element size room input).map fun (l, input) =>
              (v :: l, input)

/-- The elements of an array that was read must be as many as its type says. -/
def checkArray (size : Nat) (l : List α) : Except String { l : List α // l.length = size } :=
  if h : l.length = size then .ok ⟨l, h⟩ else .error (arrayMismatch l.length size)

/-- `DecodeSortKeyArray` behind the validity byte. -/
def decodeArray (delimiter : UInt8) (element : List UInt8 → Except String (α × List UInt8))
    (size : Nat) (input : List UInt8) :
    Except String ({ l : List α // l.length = size } × List UInt8) :=
  match decodeArrayLoop delimiter element size size input with
  | .error e => .error e
  | .ok (l, rest) => (checkArray size l).map fun l => (l, rest)

theorem flipByte_flipByte (flip : Bool) (b : UInt8) : flipByte flip (flipByte flip b) = b := by
  cases flip with
  | false => rfl
  | true => exact UInt8.not_not

theorem notMem_decodeVarchar (flip : Bool) (input : List UInt8) :
    0xFF ∉ (decodeVarchar flip input).1 := by
  intro hmem
  obtain ⟨b, hb, heq⟩ := List.mem_map.1 hmem
  have hne := of_decide_eq_true (List.all_eq_true.1 List.all_takeWhile b hb)
  have hzero : flipByte flip b = 0 := by
    have hbyte : ∀ b : BitVec 8, b - 1#8 = 0xFF#8 → b = 0#8 := by decide
    exact UInt8.toBitVec_inj.mp (hbyte _ (congrArg UInt8.toBitVec heq))
  exact hne (by rw [← flipByte_flipByte flip b, hzero]; rfl)

theorem intBounds_decodeNumber (signed : Bool) {n : Nat} (hn : 0 < n) (input : List UInt8) :
    IntBounds signed n
      (if signed then decodeSigned n input else (decodeUnsigned n input : Int)) := by
  have hlt : ∀ bytes : List UInt8, bytes.length ≤ n → loadWord bytes < 2 ^ (8 * n) := by
    intro bytes hlen
    refine lt_of_lt_of_le (loadWord_lt bytes) ?_
    rw [pow_mul]
    exact Nat.pow_le_pow_right (by decide) hlen
  have htake : (input.take n).length ≤ n := List.length_take_le n input
  cases signed with
  | true =>
      have hw := hlt (flipSign (input.take n)).reverse
        (by rwa [List.length_reverse, length_flipSign])
      show -(2 ^ (8 * n - 1)) ≤ decodeSigned n input ∧ decodeSigned n input < 2 ^ (8 * n - 1)
      obtain ⟨half, hhalf⟩ : ∃ half : Nat, 2 ^ (8 * n - 1) = half := ⟨_, rfl⟩
      have hfull : 2 ^ (8 * n) = 2 * half := by
        rw [← hhalf, ← pow_succ']
        congr 1
        omega
      have hhalfInt : (2 : Int) ^ (8 * n - 1) = half := by exact_mod_cast hhalf
      have hfullInt : (2 : Int) ^ (8 * n) = 2 * half := by exact_mod_cast hfull
      rw [hfull] at hw
      rw [decodeSigned, toSigned, hhalf, hhalfInt, hfullInt]
      split_ifs <;> omega
  | false =>
      have hw := hlt (input.take n).reverse (by rwa [List.length_reverse])
      show (0 : Int) ≤ decodeUnsigned n input ∧ (decodeUnsigned n input : Int) < 2 ^ (8 * n)
      rw [decodeUnsigned]
      exact ⟨Int.natCast_nonneg _, by exact_mod_cast hw⟩

theorem intBounds_decodeInteger (signed : Bool) (width : IntWidth) (input : List UInt8) :
    IntBounds signed width.bytes (decodeInteger signed width input) := by
  cases width with
  | w128 =>
      have hupper := intBounds_decodeNumber signed (n := 8) (by decide) input
      have hlower := intBounds_decodeNumber false (n := 8) (by decide) (input.drop 8)
      obtain ⟨hlo, hhi⟩ : (0 : Int) ≤ decodeUnsigned 8 (input.drop 8) ∧
        (decodeUnsigned 8 (input.drop 8) : Int) < 2 ^ 64 := hlower
      cases signed with
      | true =>
          obtain ⟨hl, hh⟩ : -(2 ^ 63) ≤ decodeSigned 8 input ∧ decodeSigned 8 input < 2 ^ 63 :=
            hupper
          show -(2 ^ 127) ≤ decodeSigned 8 input * 2 ^ 64 + decodeUnsigned 8 (input.drop 8) ∧
            decodeSigned 8 input * 2 ^ 64 + decodeUnsigned 8 (input.drop 8) < 2 ^ 127
          omega
      | false =>
          obtain ⟨hl, hh⟩ : (0 : Int) ≤ decodeUnsigned 8 input ∧
            (decodeUnsigned 8 input : Int) < 2 ^ 64 := hupper
          show 0 ≤ (decodeUnsigned 8 input : Int) * 2 ^ 64 + decodeUnsigned 8 (input.drop 8) ∧
            (decodeUnsigned 8 input : Int) * 2 ^ 64 + decodeUnsigned 8 (input.drop 8) < 2 ^ 128
          omega
  | w8 => exact intBounds_decodeNumber signed (by decide) input
  | w16 => exact intBounds_decodeNumber signed (by decide) input
  | w32 => exact intBounds_decodeNumber signed (by decide) input
  | w64 => exact intBounds_decodeNumber signed (by decide) input

/-- What `SortKeyConstantOperator::Decode` hands to `Radix::DecodeData`. -/
def constantBytes (flip : Bool) (n : Nat) (input : List UInt8) : List UInt8 :=
  (input.take n).map (flipByte flip)

mutual

/-- `DecodeSortKeyRecursive` behind the validity byte: the value and the rest of the key. -/
def decodePayload (flip : Bool) : (t : SortType) →
    List UInt8 → Except String (t.Payload × List UInt8)
  | .bool, input => .ok (decide ((constantBytes flip 1 input).headD 0 ≠ 0), input.drop 1)
  | .integer signed width, input =>
      .ok (⟨decodeInteger signed width (constantBytes flip width.bytes input),
        intBounds_decodeInteger signed width _⟩, input.drop width.bytes)
  | .varchar, input =>
      .ok (⟨(decodeVarchar flip input).1, notMem_decodeVarchar flip input⟩,
        input.drop (decodeVarchar flip input).2)
  | .blob, input => (decodeBlob flip input).map fun (blob, n) => (blob, input.drop n)
  | .struct fields, input => decodeFields flip fields input
  | .list child, input =>
      decodeListLoop (flipByte flip listDelimiter)
        (decodeValue (childNullByte flip) child.nullHasPayload (decodePayload flip child))
        input.length input
  | .array child size, input =>
      decodeArray (flipByte flip listDelimiter)
        (decodeValue (childNullByte flip) child.nullHasPayload (decodePayload flip child))
        size input

def decodeFields (flip : Bool) : (fields : SortFields) →
    List UInt8 → Except String (fields.Values × List UInt8)
  | .nil, input => .ok ((), input)
  | .cons field fields, input =>
      match decodeValue (childNullByte flip) field.nullHasPayload (decodePayload flip field)
        input with
      | .error e => .error e
      | .ok (v, input) => (decodeFields flip fields input).map fun (vs, rest) => ((v, vs), rest)

end

def decodeRow : (cs : List SortColumn) → List UInt8 → Except String (SortRow cs × List UInt8)
  | [], input => .ok ((), input)
  | c :: cs, input =>
      match decodeValue c.nullByte c.type.nullHasPayload (decodePayload c.descending c.type)
        input with
      | .error e => .error e
      | .ok (v, input) => (decodeRow cs input).map fun (row, rest) => ((v, row), rest)

def SortKey.data : SortKey → List UInt8
  | .bigint v => storeBytes 8 (bswap 8 (v % 2 ^ 64).toNat)
  | .blob bytes => bytes

def decodeSortKey (cs : List SortColumn) (key : SortKey) :
    Except String (SortRow cs × List UInt8) :=
  decodeRow cs key.data

/-! ## Round trips -/

theorem decodeVarchar_encode (flip : Bool) {s : List UInt8} (hs : 0xFF ∉ s) (rest : List UInt8) :
    decodeVarchar flip (encodeVarchar flip s ++ rest) = (s, s.length + 1) := by
  have htake : (encodeVarchar flip s ++ rest).takeWhile
      (fun b => decide (b ≠ flipByte flip stringDelimiter)) =
      (s.map (· + 1)).map (flipByte flip) := by
    have hall : ∀ b ∈ (s.map (· + 1)).map (flipByte flip),
        decide (b ≠ flipByte flip stringDelimiter) = true := by
      intro b hb
      obtain ⟨c, hc, rfl⟩ := List.mem_map.1 hb
      obtain ⟨d, hd, rfl⟩ := List.mem_map.1 hc
      refine decide_eq_true fun heq => hs ?_
      have hzero : d + 1 = 0 := by
        have := congrArg (flipByte flip) heq
        rwa [flipByte_flipByte, flipByte_flipByte] at this
      have hbyte : ∀ b : BitVec 8, b + 1#8 = 0#8 → b = 0xFF#8 := by decide
      have hlast : d = 0xFF := UInt8.toBitVec_inj.mp (hbyte _ (congrArg UInt8.toBitVec hzero))
      exact hlast ▸ hd
    rw [encodeVarchar_eq, List.map_append, List.append_assoc,
      List.takeWhile_append_of_pos hall]
    simp
  have hmap : ((s.map (· + 1)).map (flipByte flip)).map (fun b => flipByte flip b - 1) = s := by
    rw [List.map_map, List.map_map]
    conv_rhs => rw [← List.map_id s]
    refine List.map_congr_left fun b _ => ?_
    show flipByte flip (flipByte flip (b + 1)) - 1 = b
    rw [flipByte_flipByte]
    exact UInt8.add_sub_cancel b 1
  rw [decodeVarchar, htake, hmap]
  simp

theorem flipByte_inj {flip : Bool} {a b : UInt8} (h : flipByte flip a = flipByte flip b) : a = b := by
  rw [← flipByte_flipByte flip a, h, flipByte_flipByte]

theorem scanBlob_plain {flip : Bool} {b : UInt8} (hdelim : b ≠ flipByte flip stringDelimiter)
    (hesc : b ≠ flipByte flip blobEscapeCharacter) (input : List UInt8) :
    scanBlob flip (b :: input) = ((scanBlob flip input).1 + 1, (scanBlob flip input).2 + 1) := by
  cases input with
  | nil => simp [scanBlob, hdelim, hesc]
  | cons c input => rw [scanBlob, if_neg hdelim, if_neg hesc]

theorem copyBlob_plain {flip : Bool} {b : UInt8} (hesc : b ≠ flipByte flip blobEscapeCharacter)
    (n : Nat) (input : List UInt8) :
    copyBlob flip (n + 1) (b :: input) = flipByte flip b :: copyBlob flip n input := by
  cases n with
  | zero => simp [copyBlob, hesc]
  | succ n => rw [copyBlob, if_neg hesc]

/-- Both loops of the decoder over the escaped bytes of a blob. -/
theorem scanBlob_encode (flip : Bool) (rest : List UInt8) : (s : List UInt8) →
    scanBlob flip (encodeBlobBytes flip s ++ flipByte flip stringDelimiter :: rest) =
        (s.length, (encodeBlobBytes flip s).length) ∧
      copyBlob flip (encodeBlobBytes flip s).length
        (encodeBlobBytes flip s ++ flipByte flip stringDelimiter :: rest) = s
  | [] => by
      refine ⟨?_, rfl⟩
      show scanBlob flip (flipByte flip stringDelimiter :: rest) = (0, 0)
      cases rest <;> simp [scanBlob]
  | b :: s => by
      obtain ⟨hscan, hcopy⟩ := scanBlob_encode flip rest s
      have hcons := encodeBlobBytes_append flip [b] s
      rw [List.singleton_append] at hcons
      rw [hcons]
      by_cases hb : escapes b = true
      · rw [encodeBlobBytes_escape flip hb]
        have hne : flipByte flip blobEscapeCharacter ≠ flipByte flip stringDelimiter := fun heq =>
          absurd (flipByte_inj heq) (by decide)
        constructor
        · simp [scanBlob, hne, hscan]
        · simp [copyBlob, hcopy, flipByte_flipByte]
      · have hgt : ¬ b.toNat ≤ 1 := fun hle => hb ((escapes_iff b).2 hle)
        have hdelim : flipByte flip b ≠ flipByte flip stringDelimiter := fun heq => by
          obtain rfl := flipByte_inj heq
          exact hgt (by decide)
        have hesc : flipByte flip b ≠ flipByte flip blobEscapeCharacter := fun heq => by
          obtain rfl := flipByte_inj heq
          exact hgt (by decide)
        rw [encodeBlobBytes_plain flip (x := [b]) (by simpa using hb)]
        constructor
        · simp [scanBlob_plain hdelim hesc, hscan]
        · simp [copyBlob_plain hesc, hcopy, flipByte_flipByte]

theorem decodeBlob_encode (flip : Bool) (s rest : List UInt8) :
    decodeBlob flip (encodeBlob flip s ++ rest) = .ok (s, (encodeBlob flip s).length) := by
  obtain ⟨hscan, hcopy⟩ := scanBlob_encode flip rest s
  have hsplit : encodeBlob flip s ++ rest =
      encodeBlobBytes flip s ++ flipByte flip stringDelimiter :: rest := by
    rw [encodeBlob_eq, List.append_assoc]
    rfl
  rw [decodeBlob, hsplit, hscan]
  simp only [hcopy, if_pos (Nat.le_refl s.length)]
  rw [encodeBlob_eq, List.length_append]
  rfl

theorem constantBytes_encode (flip : Bool) (bytes rest : List UInt8) :
    constantBytes flip bytes.length (encodeConstant flip bytes ++ rest) = bytes := by
  have hlen : (bytes.map (flipByte flip)).length = bytes.length := List.length_map ..
  rw [encodeConstant_eq, constantBytes, List.take_left' hlen, List.map_map]
  conv_rhs => rw [← List.map_id bytes]
  exact List.map_congr_left fun b _ => flipByte_flipByte flip b

theorem drop_encodeConstant (flip : Bool) (bytes rest : List UInt8) :
    (encodeConstant flip bytes ++ rest).drop bytes.length = rest := by
  have hlen : (bytes.map (flipByte flip)).length = bytes.length := List.length_map ..
  rw [encodeConstant_eq, List.drop_left' hlen]

/-! ### Values with validity bytes -/

/-- The decoder reads back what the encoder writes, whatever follows it. -/
def Decodes (decode : List UInt8 → Except String (α × List UInt8)) (encode : α → List UInt8) :
    Prop :=
  ∀ v rest, decode (encode v ++ rest) = .ok (v, rest)

/-- The decoder skips what stands behind the validity byte of a NULL. -/
def SkipsNull (hasPayload : Bool) (decode : List UInt8 → Except String (α × List UInt8))
    (z : List UInt8) : Prop :=
  if hasPayload then ∀ rest, ∃ v, decode (z ++ rest) = .ok (v, rest) else z = []

variable {decode : List UInt8 → Except String (α × List UInt8)} {encode : α → List UInt8}

theorem decodeValue_encode {hasPayload : Bool} {z : List UInt8} {nullByte validByte : UInt8}
    (hne : validByte ≠ nullByte) (hdecode : Decodes decode encode)
    (hnull : SkipsNull hasPayload decode z) : Decodes (decodeValue nullByte hasPayload decode)
      (fun v => v.elim (nullByte :: z) fun v => validByte :: encode v) := by
  intro v rest
  cases v with
  | none =>
      cases hasPayload with
      | true =>
          obtain ⟨v, hv⟩ := hnull rest
          simp [decodeValue, readByte, hv, Except.map]
      | false =>
          obtain rfl : z = [] := hnull
          simp [decodeValue, readByte]
  | some v => simp [decodeValue, readByte, hne, hdecode v rest, Except.map]

theorem decodeListLoop_encode {element : List UInt8 → Except String (α × List UInt8)}
    {delimiter : UInt8} (hdecode : Decodes element encode)
    (hhead : ∀ v, ∃ b z, encode v = b :: z ∧ b ≠ delimiter) (rest : List UInt8) :
    (l : List α) → (fuel : Nat) → l.length < fuel →
    decodeListLoop delimiter element fuel (l.flatMap encode ++ [delimiter] ++ rest) = .ok (l, rest)
  | [], fuel + 1, _ => by simp [decodeListLoop]
  | v :: l, fuel + 1, hfuel => by
      have hrec := decodeListLoop_encode hdecode hhead rest l fuel
        (Nat.lt_of_succ_lt_succ hfuel)
      obtain ⟨b, z, hb, hne⟩ := hhead v
      have hv := hdecode v (l.flatMap encode ++ [delimiter] ++ rest)
      rw [List.flatMap_cons, List.append_assoc, List.append_assoc,
        ← List.append_assoc (l.flatMap encode)]
      rw [hb, List.cons_append] at hv ⊢
      simp only [decodeListLoop, if_neg hne, hv, hrec, Except.map]

theorem decodeArrayLoop_encode {element : List UInt8 → Except String (α × List UInt8)}
    {delimiter : UInt8} (hdecode : Decodes element encode)
    (hhead : ∀ v, ∃ b z, encode v = b :: z ∧ b ≠ delimiter) (size : Nat) (rest : List UInt8) :
    (l : List α) → (room : Nat) → l.length ≤ room →
    decodeArrayLoop delimiter element size room (l.flatMap encode ++ [delimiter] ++ rest) =
      .ok (l, rest)
  | [], room, _ => by cases room <;> simp [decodeArrayLoop]
  | v :: l, room + 1, hroom => by
      have hrec := decodeArrayLoop_encode hdecode hhead size rest l room
        (Nat.le_of_succ_le_succ hroom)
      obtain ⟨b, z, hb, hne⟩ := hhead v
      have hv := hdecode v (l.flatMap encode ++ [delimiter] ++ rest)
      rw [List.flatMap_cons, List.append_assoc, List.append_assoc,
        ← List.append_assoc (l.flatMap encode)]
      rw [hb, List.cons_append] at hv ⊢
      simp only [decodeArrayLoop, if_neg hne, hv, hrec, Except.map]

theorem childValidByte_ne (flip : Bool) : childValidByte flip ≠ childNullByte flip := by
  cases flip <;> decide

theorem child_head {α : Type} (encode : α → List UInt8) (flip : Bool) (z : List UInt8)
    (v : Option α) :
    ∃ b y, (v.elim (childNullByte flip :: z) fun v => childValidByte flip :: encode v) = b :: y ∧
      b ≠ flipByte flip listDelimiter := by
  cases v with
  | none => exact ⟨childNullByte flip, z, rfl, by cases flip <;> decide⟩
  | some v => exact ⟨childValidByte flip, encode v, rfl, by cases flip <;> decide⟩

theorem length_lt_children {α : Type} {encode : α → List UInt8} {delimiter : UInt8}
    (hhead : ∀ v, ∃ b z, encode v = b :: z ∧ b ≠ delimiter) (l : List α) (rest : List UInt8) :
    l.length < (l.flatMap encode ++ [delimiter] ++ rest).length := by
  induction l with
  | nil => simp
  | cons v l ih =>
      obtain ⟨b, z, hb, -⟩ := hhead v
      simp only [List.length_append, List.flatMap_cons, hb, List.length_cons,
        List.length_nil] at ih ⊢
      omega

theorem list_decodes {hasPayload flip : Bool} {z : List UInt8} (hdecode : Decodes decode encode)
    (hnull : SkipsNull hasPayload decode z) (l : List (Option α)) (rest : List UInt8) :
    decodeListLoop (flipByte flip listDelimiter)
      (decodeValue (childNullByte flip) hasPayload decode)
      ((l.flatMap fun v => v.elim (childNullByte flip :: z) fun v =>
        childValidByte flip :: encode v) ++ [flipByte flip listDelimiter] ++ rest).length
      ((l.flatMap fun v => v.elim (childNullByte flip :: z) fun v =>
        childValidByte flip :: encode v) ++ [flipByte flip listDelimiter] ++ rest) =
      .ok (l, rest) :=
  decodeListLoop_encode (decodeValue_encode (childValidByte_ne flip) hdecode hnull)
    (child_head encode flip z) rest l _ (length_lt_children (child_head encode flip z) l rest)

theorem array_decodes {hasPayload : Bool} {z : List UInt8} (flip : Bool)
    (hdecode : Decodes decode encode) (hnull : SkipsNull hasPayload decode z) {size : Nat}
    (l : { l : List (Option α) // l.length = size }) (rest : List UInt8) :
    decodeArray (flipByte flip listDelimiter)
      (decodeValue (childNullByte flip) hasPayload decode) size
      ((l.1.flatMap fun v => v.elim (childNullByte flip :: z) fun v =>
        childValidByte flip :: encode v) ++ [flipByte flip listDelimiter] ++ rest) =
      .ok (l, rest) := by
  have hloop := decodeArrayLoop_encode
    (decodeValue_encode (childValidByte_ne flip) hdecode hnull) (child_head encode flip z) size
    rest l.1 size (Nat.le_of_eq l.2)
  have hcheck : checkArray size l.1 = .ok l := dif_pos l.2
  rw [decodeArray, hloop]
  simp only [hcheck, Except.map]

theorem blob_decodes (flip : Bool) (s rest : List UInt8) :
    ((decodeBlob flip (encodeBlob flip s ++ rest)).map fun (blob, n) =>
      (blob, (encodeBlob flip s ++ rest).drop n)) = .ok (s, rest) := by
  rw [decodeBlob_encode]
  simp only [Except.map, List.drop_left' rfl]

mutual

theorem decodePayload_encode (flip : Bool) : (t : SortType) →
    Decodes (decodePayload flip t) (encodePayload flip t)
  | .bool => fun v rest => by
      have hbytes := constantBytes_encode flip [bif v then 1 else 0] rest
      have hdrop := drop_encodeConstant flip [bif v then 1 else 0] rest
      rw [List.length_singleton] at hbytes hdrop
      rw [decodePayload, encodePayload, hbytes, hdrop]
      cases v <;> rfl
  | .integer signed width => fun v rest => by
      have hlen := length_encodeInteger signed width v.1
      have hbytes := constantBytes_encode flip (encodeInteger signed width v.1) rest
      have hdrop := drop_encodeConstant flip (encodeInteger signed width v.1) rest
      have hvalue := decodeInteger_encode v []
      rw [List.append_nil] at hvalue
      rw [hlen] at hbytes hdrop
      rw [decodePayload, encodePayload, hdrop]
      simp only [hbytes, hvalue]
      rfl
  | .varchar => fun s rest => by
      have hdecode := decodeVarchar_encode flip s.2 rest
      have hlen : (encodeVarchar flip s.1).length = s.1.length + 1 := by
        rw [encodeVarchar_eq, List.length_map, List.length_append, List.length_map]
        rfl
      rw [decodePayload, encodePayload]
      simp only [hdecode, List.drop_left' hlen]
      rfl
  | .blob => blob_decodes flip
  | .struct fields => decodeFields_encode flip fields
  | .list child => list_decodes (decodePayload_encode flip child) (skipsNull flip child)
  | .array child _ => array_decodes flip (decodePayload_encode flip child) (skipsNull flip child)

theorem decodeFields_encode (flip : Bool) : (fields : SortFields) →
    Decodes (decodeFields flip fields) (encodeFields flip fields)
  | .nil => fun _ _ => rfl
  | .cons field fields => fun vs rest => by
      have hfirst := decodeValue_encode (childValidByte_ne flip) (decodePayload_encode flip field)
        (skipsNull flip field) vs.1 (encodeFields flip fields vs.2 ++ rest)
      rw [decodeFields, encodeFields, List.append_assoc, hfirst]
      simp only [decodeFields_encode flip fields vs.2 rest, Except.map]
      rfl

theorem skipsNull (flip : Bool) : (t : SortType) →
    SkipsNull t.nullHasPayload (decodePayload flip t) (encodeNull flip t)
  | .struct fields => skipsNullFields flip fields
  | .array child size => fun rest => by
      let nulls : { l : List (Option child.Payload) // l.length = size } :=
        ⟨List.replicate size none, List.length_replicate ..⟩
      have hnulls := array_decodes flip (decodePayload_encode flip child) (skipsNull flip child)
        nulls rest
      rw [List.flatMap_replicate] at hnulls
      exact ⟨nulls, hnulls⟩
  | .bool => rfl
  | .integer _ _ => rfl
  | .varchar => rfl
  | .blob => rfl
  | .list _ => rfl

theorem skipsNullFields (flip : Bool) : (fields : SortFields) → ∀ rest,
    ∃ vs, decodeFields flip fields (encodeNullFields flip fields ++ rest) = .ok (vs, rest)
  | .nil => fun rest => ⟨(), rfl⟩
  | .cons field fields => fun rest => by
      obtain ⟨vs, hvs⟩ := skipsNullFields flip fields rest
      have hfirst : decodeValue (childNullByte flip) field.nullHasPayload
          (decodePayload flip field) ((childNullByte flip :: encodeNull flip field) ++
            (encodeNullFields flip fields ++ rest)) =
          .ok (none, encodeNullFields flip fields ++ rest) :=
        decodeValue_encode (childValidByte_ne flip) (decodePayload_encode flip field)
          (skipsNull flip field) none _
      refine ⟨(none, vs), ?_⟩
      rw [decodeFields, encodeNullFields, List.append_assoc, hfirst]
      simp only [hvs, Except.map]

end

/-! ## Rows -/

theorem SortColumn.validByte_ne (c : SortColumn) : c.validByte ≠ c.nullByte := by
  unfold SortColumn.validByte SortColumn.nullByte
  cases c.nullsFirst <;> decide

theorem decodeRow_encode : (cs : List SortColumn) → Decodes (decodeRow cs) (keyBytes cs)
  | [], _, _ => rfl
  | c :: cs, row, rest => by
      have hfirst : decodeValue c.nullByte c.type.nullHasPayload (decodePayload c.descending c.type)
          (encodeColumn c row.1 ++ (keyBytes cs row.2 ++ rest)) =
          .ok (row.1, keyBytes cs row.2 ++ rest) :=
        decodeValue_encode c.validByte_ne (decodePayload_encode c.descending c.type)
          (skipsNull c.descending c.type) row.1 _
      rw [decodeRow, keyBytes, List.append_assoc, hfirst]
      simp only [decodeRow_encode cs row.2 rest, Except.map]
      rfl

/-- `CreateSortKeyInternal` with the buffers it writes to: eight zero bytes for a BIGINT, else as
many bytes as `getSortKeyLength` says, of which those written are kept. -/
def createSortKeyInternal (cs : List SortColumn) (row : SortRow cs) (allocated : List UInt8) :
    Option SortKey :=
  if (constantKeySize cs).any (· ≤ 8) then
    (constructSortKey cs row 0 (List.replicate 8 0)).map fun s =>
      .bigint (toInt64 (bswap 8 (loadWord s.1)))
  else (constructSortKey cs row 0 allocated).map fun s => .blob (s.1.take s.2)

theorem constructSortKey_eq (cs : List SortColumn) (row : SortRow cs) {buffer : List UInt8}
    (h : (keyBytes cs row).length ≤ buffer.length) :
    constructSortKey cs row 0 buffer =
      some (keyBytes cs row ++ buffer.drop (keyBytes cs row).length, (keyBytes cs row).length) := by
  have hwrite := constructSortKey_writes cs row 0 buffer (by rwa [Nat.zero_add])
  rwa [overwrite, List.take_zero, List.nil_append, Nat.zero_add] at hwrite

/-- The key is a BIGINT exactly if all columns are of a fixed size and fit eight bytes. -/
theorem createSortKey_eq (cs : List SortColumn) (row : SortRow cs) :
    createSortKey cs row =
      if (constantKeySize cs).any (· ≤ 8) then
        .bigint (toInt64 (bswap 8 (loadWord (paddedKey cs row))))
      else .blob (keyBytes cs row) := by
  cases hsize : constantKeySize cs with
  | none => simp [createSortKey, hsize]
  | some size =>
      by_cases h8 : size ≤ 8 <;> simp [createSortKey, hsize, h8, paddedKey]

theorem length_le_of_bigint {cs : List SortColumn} (h : (constantKeySize cs).any (· ≤ 8) = true)
    (row : SortRow cs) : (keyBytes cs row).length ≤ 8 := by
  cases hsize : constantKeySize cs with
  | none => simp [hsize] at h
  | some size =>
      have h8 : size ≤ 8 := by simpa [hsize] using h
      exact (length_keyBytes hsize row).trans h8

theorem createSortKeyInternal_eq (cs : List SortColumn) (row : SortRow cs)
    {allocated : List UInt8} (h : allocated.length = getSortKeyLength cs row) :
    createSortKeyInternal cs row allocated = some (createSortKey cs row) := by
  have hlen : (keyBytes cs row).length ≤ allocated.length := by
    rw [h, getSortKeyLength_eq]
    exact Nat.le_add_right _ _
  rw [createSortKeyInternal, createSortKey_eq]
  by_cases hbig : (constantKeySize cs).any (· ≤ 8) = true
  · have h8 := length_le_of_bigint hbig row
    rw [if_pos hbig, if_pos hbig,
      constructSortKey_eq cs row (by rwa [List.length_replicate]), List.drop_replicate]
    rfl
  · rw [if_neg hbig, if_neg hbig, constructSortKey_eq cs row hlen]
    simp

/-- A BIGINT key is swapped back to the bytes that were written. -/
theorem data_createSortKey (cs : List SortColumn) (row : SortRow cs) :
    (createSortKey cs row).data =
      if (constantKeySize cs).any (· ≤ 8) then paddedKey cs row else keyBytes cs row := by
  rw [createSortKey_eq]
  by_cases hbig : (constantKeySize cs).any (· ≤ 8) = true
  · have h8 := length_le_of_bigint hbig row
    have hpad := length_paddedKey h8
    have hlt := loadWord_lt (paddedKey cs row).reverse
    rw [List.length_reverse, hpad] at hlt
    have hback : bswap 8 (loadWord (paddedKey cs row).reverse) = loadWord (paddedKey cs row) := by
      rw [bswap_loadWord (by rw [List.length_reverse, hpad]), List.reverse_reverse]
    have hmod : ((loadWord (paddedKey cs row).reverse : Int) % 2 ^ 64).toNat =
        loadWord (paddedKey cs row).reverse := by omega
    have hstore := storeBytes_loadWord (paddedKey cs row)
    rw [hpad] at hstore
    rw [if_pos hbig, if_pos hbig, toInt64_paddedKey h8, SortKey.data, hmod, hback, hstore]
  · rw [if_neg hbig, if_neg hbig, SortKey.data]

/-- A row of any columns: the computed length, what is written into a buffer of that length, and
what is read back. The word-at-a-time encoders write what loops over the bytes would. -/
theorem sortKey_round_trip (cs : List SortColumn) (row : SortRow cs) :
    getSortKeyLength cs row = (keyBytes cs row).length + reservedLength cs row ∧
      (∀ allocated : List UInt8, allocated.length = getSortKeyLength cs row →
        constructSortKey cs row 0 allocated =
          some (keyBytes cs row ++ allocated.drop (keyBytes cs row).length,
            (keyBytes cs row).length) ∧
        createSortKeyInternal cs row allocated = some (createSortKey cs row)) ∧
      (∀ flip input,
        Writes (encodeVarcharAt flip input)
          ((input.map (· + 1) ++ [stringDelimiter]).map (flipByte flip)) ∧
        Writes (encodeBlobAt flip input)
          (encodeBlobBytes flip input ++ [flipByte flip stringDelimiter]) ∧
        getEncodeLengthBlob input =
          (encodeBlobBytes flip input ++ [flipByte flip stringDelimiter]).length) ∧
      ∃ rest, (createSortKey cs row).data = keyBytes cs row ++ rest ∧
        decodeSortKey cs (createSortKey cs row) = .ok (row, rest) ∧
        ((∃ bytes, createSortKey cs row = .blob bytes) → rest = []) := by
  refine ⟨getSortKeyLength_eq cs row, fun allocated h => ⟨?_, createSortKeyInternal_eq cs row h⟩,
    fun flip input => ⟨?_, ?_, ?_⟩, ?_⟩
  · refine constructSortKey_eq cs row ?_
    rw [h, getSortKeyLength_eq]
    exact Nat.le_add_right _ _
  · exact (encodeVarcharAt_writes flip input).congr (encodeVarchar_eq flip input)
  · exact (encodeBlobAt_writes flip input).congr (encodeBlob_eq flip input)
  · rw [getEncodeLengthBlob_eq flip, encodeBlob_eq]
  · have hdata := data_createSortKey cs row
    have hdecode := decodeRow_encode cs row
    rw [decodeSortKey]
    by_cases hbig : (constantKeySize cs).any (· ≤ 8) = true
    · rw [if_pos hbig, paddedKey] at hdata
      refine ⟨_, hdata, by rw [hdata, hdecode], ?_⟩
      rintro ⟨bytes, hblob⟩
      rw [createSortKey_eq, if_pos hbig] at hblob
      cases hblob
    · rw [if_neg hbig] at hdata
      have hnil := hdecode []
      rw [List.append_nil] at hnil
      exact ⟨[], by rw [hdata, List.append_nil], by rw [hdata, hnil], fun _ => rfl⟩

/-- A NULL of a fixed size takes one byte of the five that are reserved for it. -/
theorem null_integer_reserves :
    getSortKeyLength [⟨.integer true .w32, false, true⟩] (none, ()) ≠
      (keyBytes [⟨.integer true .w32, false, true⟩] (none, ())).length := by
  show (5 : Nat) ≠ 1
  decide

end MiniDuck
