import MiniDuck.Bit

/-!
# Operations on BIT values

Conversions from and to text, resizing, shifts and the bitwise operators,
each as a list operation on the bits. `bit_values` collects them.
-/

namespace MiniDuck

namespace BitBuffer

open ByteBits

/-! ## From text -/

def readBits : Byte → List UInt8 → Except BitError Byte
  | byte, [] => .ok byte
  | byte, c :: data =>
      let byte := byte <<< 1
      if c = 49 then readBits (byte ||| 1) data
      else if c ≠ 48 then .error (.invalidCharacter c)
      else readBits byte data

def readBytes : Nat → List UInt8 → Except BitError (List Byte)
  | 0, _ => .ok []
  | n + 1, data => do
      let byte ← readBits 0 (data.take 8)
      let bytes ← readBytes n (data.drop 8)
      return byte :: bytes

def characterIsHex (c : UInt8) : Bool :=
  (48 ≤ c && c ≤ 57) || (97 ≤ c && c ≤ 102) || (65 ≤ c && c ≤ 70)

def getHexValue (c : UInt8) : Nat :=
  if 48 ≤ c ∧ c ≤ 57 then c.toNat - 48
  else if 97 ≤ c ∧ c ≤ 102 then c.toNat - 97 + 10
  else c.toNat - 65 + 10

def getByteFromHex (char1 char2 : UInt8) : Except BitError Byte :=
  if !characterIsHex char1 then .error (.invalidCharacter char1)
  else if !characterIsHex char2 then .error (.invalidCharacter char2)
  else .ok (BitVec.ofNat 8 (getHexValue char1 <<< 4 ||| getHexValue char2))

def readHex : List UInt8 → Except BitError (List Byte)
  | c :: d :: data => do
      let byte ← getByteFromHex c d
      let bytes ← readHex data
      return byte :: bytes
  | _ => .ok []

/-- `Bit::HexToBit` of the digits behind the `x`. -/
def hexToBit (digits : List UInt8) : Except BitError BitBuffer := do
  if digits.length % 2 ≠ 0 then
    let byte ← getByteFromHex 48 (digits.headD 0)
    let bytes ← readHex digits.tail
    return (⟨4, byte :: bytes⟩ : BitBuffer).finalize
  else
    let bytes ← readHex digits
    return (⟨0, bytes⟩ : BitBuffer).finalize

def setEmptyBitString (len : Nat) : BitBuffer :=
  finalize ⟨computePadding len, List.replicate (computeBitstringLen len - 1) 0⟩

def tryGetBitStringSize (str : List UInt8) : Except BitError Nat :=
  if str.length = 0 then .ok (computeBitstringLen 1)
  else
    let bitCount := if str.headD 0 = 120 then 4 * (str.length - 1) else str.length
    if bitCount = 0 then .error .emptyString else .ok (computeBitstringLen bitCount)

/-- `Bit::ToBit` into a buffer. -/
def toBit (str : List UInt8) : Except BitError BitBuffer := do
  if str.length = 0 then return setEmptyBitString 1
  else if str.headD 0 = 120 then hexToBit str.tail
  else
    let paddedByte := str.length % 8
    let byte ← readBits 0 (str.take paddedByte)
    let bytes ← readBytes (str.length / 8) (str.drop paddedByte)
    -- without padding the first byte is the padding count
    if paddedByte ≠ 0 then return (⟨8 - paddedByte, byte :: bytes⟩ : BitBuffer).finalize
    else return (⟨byte.toNat, bytes⟩ : BitBuffer).finalize

/-- `Bit::ToBit`, with the size of the buffer that it allocates. -/
def toBitString (str : List UInt8) : Except BitError (Nat × BitBuffer) := do
  let bitLen ← tryGetBitStringSize str
  let output ← toBit str
  return (bitLen, output)

/-! ## Resizing and shifting -/

def validateInputBitString (input : List UInt8) : Except BitError Unit :=
  if input.length = 0 then .error .emptyString
  else
    match input.find? fun c => c ≠ 48 ∧ c ≠ 49 with
    | some c => .error (.invalidCharacter c)
    | none => .ok ()

def bitString (input : List UInt8) (bitLength : Nat) (result : BitBuffer) :
    Except BitError BitBuffer := do
  validateInputBitString input
  let result := { result with padding := computePadding bitLength }
  return ((List.range bitLength).foldl (fun result i =>
    if i < bitLength - input.length then result.setBitInternal (i + result.padding) false
    else result.setBitInternal (i + result.padding)
      (input.getD (i - (bitLength - input.length)) 0 = 49)) result).finalize

def extendBitString (input : BitBuffer) (bitLength : Nat) (result : BitBuffer) : BitBuffer :=
  let result := { result with padding := computePadding bitLength }
  let shift := bitLength - input.bitLength
  ((List.range bitLength).foldl (fun result i =>
    if i < shift then result.setBit i false
    else result.setBit i (input.getBit (i - shift))) result).finalize

def rightShift (s : BitBuffer) (shift : Nat) (result : BitBuffer) : BitBuffer :=
  let result := { result with padding := s.padding }
  ((List.range result.bitLength).foldl (fun result i =>
    if i < shift then result.setBitInternal (i + result.padding) false
    else result.setBitInternal (i + result.padding) (s.getBit (i - shift))) result).finalize

def leftShift (s : BitBuffer) (shift : Nat) (result : BitBuffer) : BitBuffer :=
  let result := { result with padding := s.padding }
  ((List.range s.bitLength).foldl (fun result i =>
    if i < s.bitLength - shift then
      result.setBitInternal (i + result.padding) (s.getBit (shift + i))
    else result.setBitInternal (i + result.padding) false) result).finalize

/-! ## Bitwise operators -/

/-- The operators on two values, which write every byte of a buffer of the size of `lhs`. -/
def bitwise (operator : String) (f : Byte → Byte → Byte) (rhs lhs : BitBuffer) :
    Except BitError BitBuffer :=
  if lhs.bitLength ≠ rhs.bitLength then .error (.differentSizes operator)
  else .ok (finalize ⟨lhs.padding, List.zipWith f lhs.bytes rhs.bytes⟩)

def bitwiseAnd (rhs lhs : BitBuffer) : Except BitError BitBuffer :=
  bitwise "AND" (fun l r => l &&& r) rhs lhs

def bitwiseOr (rhs lhs : BitBuffer) : Except BitError BitBuffer :=
  bitwise "OR" (fun l r => l ||| r) rhs lhs

def bitwiseXor (rhs lhs : BitBuffer) : Except BitError BitBuffer :=
  bitwise "XOR" (fun l r => l ^^^ r) rhs lhs

def bitwiseNot (input : BitBuffer) : BitBuffer :=
  finalize ⟨input.padding, input.bytes.map fun b => ~~~b⟩

/-! ## The operations on lists -/

variable {s : BitBuffer} {l : List Bool}

theorem readBits_map (l : List Bool) : ∀ b : Byte, ∃ c, readBits b (l.map bitChar) = .ok c ∧
    byteBits c = (byteBits b ++ l).drop l.length := by
  induction l with
  | nil => exact fun b => ⟨b, rfl, by simp⟩
  | cons v l ih =>
      intro b
      obtain ⟨c, hc, hbits⟩ := ih (shiftIn b v)
      refine ⟨c, ?_, ?_⟩
      · rw [← hc]
        cases v <;> rfl
      · have hdrop : (byteBits b ++ v :: l).drop 1 = (byteBits b).drop 1 ++ ([v] ++ l) :=
          List.drop_append_of_le_length (by simp)
        rw [hbits, byteBits_shiftIn, List.append_assoc, ← hdrop, List.drop_drop,
          List.length_cons, Nat.add_comm]

/-- Bits of less than a byte have zeros in front. -/
theorem readBits_zero (h : l.length ≤ 8) : ∃ c, readBits 0 (l.map bitChar) = .ok c ∧
    byteBits c = List.replicate (8 - l.length) false ++ l := by
  obtain ⟨c, hc, hbits⟩ := readBits_map l 0
  refine ⟨c, hc, ?_⟩
  have hzero : byteBits 0 = List.replicate 8 false := by decide
  rw [hbits, hzero, List.drop_append_of_le_length (by simpa using h), List.drop_replicate]

theorem readBytes_map : ∀ (n : Nat) (l : List Bool), l.length = 8 * n →
    ∃ bytes, readBytes n (l.map bitChar) = .ok bytes ∧ ByteBits.bits bytes = l
  | 0, l, h => ⟨[], rfl, (List.eq_nil_of_length_eq_zero h).symm⟩
  | n + 1, l, h => by
      obtain ⟨c, hc, hbits⟩ := readBits_zero (l := l.take 8) (by simp)
      obtain ⟨bytes, hbytes, hrest⟩ := readBytes_map n (l.drop 8) (by
        rw [List.length_drop]
        omega)
      refine ⟨c :: bytes, ?_, ?_⟩
      · rw [readBytes, ← List.map_take, ← List.map_drop, hc, hbytes]
        rfl
      · rw [bits_cons, hbits, hrest, List.length_take, Nat.min_eq_left (by omega)]
        exact List.take_append_drop 8 l

theorem toString_eq (s : BitBuffer) (hpadding : s.padding < 8) (hne : s.bytes ≠ []) :
    s.toString = s.bits.map bitChar := by
  have hbyte : ∀ (b : Byte) (p : Nat), p ≤ 8 →
      (List.range' p (8 - p)).map (fun i => bitChar (b &&& (1#8 <<< (7 - i)) ≠ 0)) =
        ((byteBits b).drop p).map bitChar := by
    intro b p hp
    have hrange : (List.range 8).drop p = List.range' p (8 - p) := by
      rw [List.range_eq_range', List.drop_range']
      simp
    rw [byteBits, ← List.map_drop, hrange, List.map_map]
    refine List.map_congr_left fun i hi => ?_
    rw [List.mem_range'_1] at hi
    exact congrArg bitChar (getMsbD_eq_and b (by omega))
  cases hbytes : s.bytes with
  | nil => exact absurd hbytes hne
  | cons b bytes =>
      have hrest : (bytes.flatMap fun b => (List.range 8).map
          fun i => bitChar (b &&& (1#8 <<< (7 - i)) ≠ 0)) = (ByteBits.bits bytes).map bitChar := by
        rw [ByteBits.bits, List.map_flatMap]
        refine congrArg (List.flatMap · bytes) (funext fun b => ?_)
        have hb := hbyte b 0 (by decide)
        rw [List.drop_zero] at hb
        rw [← hb, List.range_eq_range']
      rw [toString, bits, hbytes, List.headD_cons, List.tail_cons, hbyte b s.padding hpadding.le,
        hrest, bits_cons, List.drop_append_of_le_length (by simpa using hpadding.le),
        List.map_append]

theorem computeBitstringLen_eq (len : Nat) : computeBitstringLen len = (len + 7) / 8 + 1 := by
  rw [computeBitstringLen]
  split_ifs <;> omega

theorem toBit_map (hne : l ≠ []) : ∃ s, toBit (l.map bitChar) = .ok s ∧ s.Canonical ∧
    s.bits = l ∧ s.size = computeBitstringLen l.length := by
  have hpos := List.length_pos_of_ne_nil hne
  have hhead : (l.map bitChar).headD 0 ≠ 120 := by
    cases l with
    | nil => exact absurd rfl hne
    | cons v l =>
        have hchar : ∀ v, bitChar v ≠ 120 := by decide
        exact hchar v
  obtain ⟨c, hc, hbits⟩ := readBits_zero (l := l.take (l.length % 8)) (by
    rw [List.length_take]
    omega)
  obtain ⟨bytes, hbytes, hrest⟩ := readBytes_map (l.length / 8) (l.drop (l.length % 8)) (by
    rw [List.length_drop]
    omega)
  have hbytesLength : bytes.length = l.length / 8 := by
    have hlength := congrArg List.length hrest
    rw [ByteBits.length_bits, List.length_drop] at hlength
    omega
  rw [List.length_take, Nat.min_eq_left (by omega)] at hbits
  have hread : toBit (l.map bitChar) =
      if l.length % 8 ≠ 0 then .ok (⟨8 - l.length % 8, c :: bytes⟩ : BitBuffer).finalize
      else .ok (⟨c.toNat, bytes⟩ : BitBuffer).finalize := by
    rw [toBit, List.length_map, if_neg hpos.ne', if_neg hhead]
    simp only [← List.map_take, ← List.map_drop, hc, hbytes]
    split_ifs <;> rfl
  rw [hread]
  by_cases hpadded : l.length % 8 ≠ 0
  · rw [if_pos hpadded]
    obtain ⟨hcanonical, hfinal⟩ := finalize_canonical ⟨8 - l.length % 8, c :: bytes⟩
      (by show 8 - l.length % 8 < 8; omega) (by simp)
    refine ⟨_, rfl, hcanonical, ?_, ?_⟩
    · rw [hfinal, bits, bits_cons, hbits, hrest, List.append_assoc, List.take_append_drop]
      simp
    · rw [size, (finalize_spec _).2.1, computeBitstringLen_eq, List.length_cons, hbytesLength]
      omega
  · rw [if_neg hpadded]
    rw [not_not] at hpadded
    have hzero : c.toNat = 0 := by
      have hbyte : byteBits c = byteBits 0 := by
        rw [hbits, hpadded, List.take_zero, List.append_nil]
        decide
      rw [byteBits_injective hbyte]
      rfl
    obtain ⟨hcanonical, hfinal⟩ := finalize_canonical ⟨c.toNat, bytes⟩
      (by show c.toNat < 8; omega) (List.ne_nil_of_length_pos (by
        show 0 < bytes.length
        omega))
    refine ⟨_, rfl, hcanonical, ?_, ?_⟩
    · rw [hfinal, bits, hzero, List.drop_zero, hrest, hpadded, List.drop_zero]
    · rw [size, (finalize_spec _).2.1, computeBitstringLen_eq, hbytesLength]
      omega

/-! ## Hexadecimal digits -/

def hexBits (c : UInt8) : List Bool :=
  (List.range 4).map (BitVec.ofNat 4 (getHexValue c)).getMsbD

theorem getHexValue_lt {c : UInt8} (h : characterIsHex c = true) : getHexValue c < 16 := by
  have hall : ∀ n : Fin 256, characterIsHex (UInt8.ofNat n) = true →
      getHexValue (UInt8.ofNat n) < 16 := by
    decide +kernel
  have hc : UInt8.ofNat (⟨c.toNat, c.toNat_lt⟩ : Fin 256) = c := by simp
  rw [← hc]
  exact hall _ (by rwa [hc])

theorem byteBits_hex (m n : Fin 16) :
    byteBits (BitVec.ofNat 8 (m.val <<< 4 ||| n.val)) =
      (List.range 4).map (BitVec.ofNat 4 m.val).getMsbD ++
        (List.range 4).map (BitVec.ofNat 4 n.val).getMsbD := by
  revert m n
  decide +kernel

theorem getByteFromHex_bits {c d : UInt8} (hc : characterIsHex c = true)
    (hd : characterIsHex d = true) :
    ∃ b, getByteFromHex c d = .ok b ∧ byteBits b = hexBits c ++ hexBits d := by
  refine ⟨_, by rw [getByteFromHex, hc, hd]; rfl, ?_⟩
  exact byteBits_hex ⟨_, getHexValue_lt hc⟩ ⟨_, getHexValue_lt hd⟩

theorem readHex_bits : ∀ (digits : List UInt8), (∀ c ∈ digits, characterIsHex c = true) →
    digits.length % 2 = 0 →
    ∃ bytes, readHex digits = .ok bytes ∧ ByteBits.bits bytes = digits.flatMap hexBits
  | [], _, _ => ⟨[], rfl, rfl⟩
  | [_], _, h => absurd h (show ¬ 1 % 2 = 0 by decide)
  | c :: d :: digits, hhex, h => by
      obtain ⟨b, hb, hbits⟩ := getByteFromHex_bits (hhex c (by simp)) (hhex d (by simp))
      obtain ⟨bytes, hbytes, hrest⟩ := readHex_bits digits
        (fun e he => hhex e (List.mem_cons_of_mem c (List.mem_cons_of_mem d he)))
        (by
          rw [List.length_cons, List.length_cons] at h
          omega)
      refine ⟨b :: bytes, ?_, ?_⟩
      · rw [readHex, hb, hbytes]
        rfl
      · rw [bits_cons, hbits, hrest]
        simp

theorem length_flatMap_hexBits (digits : List UInt8) :
    (digits.flatMap hexBits).length = 4 * digits.length := by
  induction digits with
  | nil => rfl
  | cons c digits ih =>
      rw [List.flatMap_cons, List.length_append, ih, List.length_cons]
      simp [hexBits]
      omega

theorem toBit_hex {digits : List UInt8} (hne : digits ≠ [])
    (hhex : ∀ c ∈ digits, characterIsHex c = true) :
    ∃ s, toBit (120 :: digits) = .ok s ∧ s.Canonical ∧ s.bits = digits.flatMap hexBits ∧
      s.size = computeBitstringLen (4 * digits.length) := by
  have hpos := List.length_pos_of_ne_nil hne
  have hsize : ∀ t : BitBuffer, t.Canonical → t.bits = digits.flatMap hexBits →
      t.size = computeBitstringLen (4 * digits.length) := by
    intro t ht hbits
    have hlength := congrArg List.length hbits
    have hpadding := ht.padding_lt
    have hbytes := List.length_pos_of_ne_nil ht.bytes_ne
    rw [length_bits, length_flatMap_hexBits, bitLength, size] at hlength
    rw [size, computeBitstringLen_eq]
    omega
  have hstart : toBit (120 :: digits) = hexToBit digits := by
    rw [toBit, if_neg (by simp)]
    rfl
  rw [hstart]
  by_cases hodd : digits.length % 2 ≠ 0
  · cases digits with
    | nil => exact absurd rfl hne
    | cons c digits =>
        obtain ⟨b, hb, hbits⟩ := getByteFromHex_bits (c := 48) (by decide) (hhex c (by simp))
        obtain ⟨bytes, hbytes, hrest⟩ := readHex_bits digits
          (fun d hd => hhex d (List.mem_cons_of_mem c hd)) (by
            rw [List.length_cons] at hodd
            omega)
        obtain ⟨hcanonical, hfinal⟩ := finalize_canonical ⟨4, b :: bytes⟩
          (show 4 < 8 by decide) (by simp)
        have hvalue : (⟨4, b :: bytes⟩ : BitBuffer).finalize.bits =
            (c :: digits).flatMap hexBits := by
          have hzero : (hexBits 48).length = 4 := rfl
          rw [hfinal, bits, bits_cons, hbits, hrest, List.append_assoc,
            List.drop_left' hzero, List.flatMap_cons]
        refine ⟨_, ?_, hcanonical, hvalue, hsize _ hcanonical hvalue⟩
        rw [hexToBit, if_pos hodd]
        simp only [List.headD_cons, List.tail_cons, hb, hbytes]
        rfl
  · obtain ⟨bytes, hbytes, hrest⟩ := readHex_bits digits hhex (not_not.mp hodd)
    have hbytesNe : bytes ≠ [] := by
      rintro rfl
      have hlength := congrArg List.length hrest
      rw [length_flatMap_hexBits] at hlength
      simp at hlength
      exact hne hlength
    obtain ⟨hcanonical, hfinal⟩ := finalize_canonical ⟨0, bytes⟩
      (show 0 < 8 by decide) hbytesNe
    have hvalue : (⟨0, bytes⟩ : BitBuffer).finalize.bits = digits.flatMap hexBits := by
      rw [hfinal, bits, List.drop_zero, hrest]
    refine ⟨_, ?_, hcanonical, hvalue, hsize _ hcanonical hvalue⟩
    rw [hexToBit, if_neg hodd]
    simp only [hbytes]
    rfl

/-! ## Loops over all bits -/

/-- The result of a loop that writes the bits of a fresh buffer. -/
theorem written_canonical (write : BitBuffer → Nat → Bool → BitBuffer)
    (hwrite : ∀ s n v, (write s n v).padding = s.padding ∧
      (write s n v).bytes.length = s.bytes.length ∧ (write s n v).bits = s.bits.set n v)
    (f : Nat → Bool) {t : BitBuffer} {n : Nat} (hn : t.bits.length = n) (hpadding : t.padding < 8)
    (hne : t.bytes ≠ []) :
    let u := ((List.range n).foldl (fun u i => write u i (f i)) t).finalize
    u.Canonical ∧ u.bits = (List.range n).map f := by
  obtain ⟨hp, hlength, hbits⟩ := foldl_write hwrite f t hn
  obtain ⟨hcanonical, hfinal⟩ := finalize_canonical
    ((List.range n).foldl (fun u i => write u i (f i)) t) (by rwa [hp])
    (List.ne_nil_of_length_pos (by
      rw [hlength]
      exact List.length_pos_of_ne_nil hne))
  exact ⟨hcanonical, hfinal.trans hbits⟩

theorem setBitInternal_spec (s : BitBuffer) (n : Nat) (v : Bool) :
    (s.setBitInternal (n + s.padding) v).padding = s.padding ∧
      (s.setBitInternal (n + s.padding) v).bytes.length = s.bytes.length ∧
      (s.setBitInternal (n + s.padding) v).bits = s.bits.set n v :=
  ⟨rfl, setBitInternal_length _ _, bits_setBitInternal n v⟩

theorem map_range_shift (k : Nat) (l : List Bool) :
    ((List.range (k + l.length)).map fun i => if i < k then false else l.getD (i - k) false) =
      List.replicate k false ++ l := by
  refine List.ext_getElem (by simp) fun i hi hi' => ?_
  rw [List.getElem_map, List.getElem_range]
  split_ifs with h
  · rw [List.getElem_append_left (by simpa using h), List.getElem_replicate]
  · have hl : i - k < l.length := by
      rw [List.length_append, List.length_replicate] at hi'
      omega
    rw [List.getElem_append_right (by rw [List.length_replicate]; omega)]
    simp only [List.length_replicate]
    rw [List.getD_eq_getElem _ _ hl]

theorem getBit_getD (h : s.bits = l) {n : Nat} (hn : n < l.length) :
    s.getBit n = l.getD n false := by
  subst h
  rw [getBit_eq hn, List.getD_eq_getElem _ _ hn]

theorem map_shifted (hbits : s.bits = l) (k : Nat) :
    ((List.range (k + l.length)).map fun i => if i < k then false else s.getBit (i - k)) =
      List.replicate k false ++ l := by
  rw [← map_range_shift]
  refine List.map_congr_left fun i hi => ?_
  rw [List.mem_range] at hi
  split_ifs with h
  · rfl
  · exact getBit_getD hbits (by omega)

variable {result : BitBuffer}

theorem extendBitString_spec {bitLength : Nat} (hle : s.bits.length ≤ bitLength)
    (hpos : 0 < bitLength) (hsize : result.size = computeBitstringLen bitLength) :
    (s.extendBitString bitLength result).Canonical ∧
      (s.extendBitString bitLength result).bits =
        List.replicate (bitLength - s.bits.length) false ++ s.bits := by
  have hwritten := written_canonical BitBuffer.setBit setBit_spec
    (fun i => if i < bitLength - s.bits.length then false
      else s.getBit (i - (bitLength - s.bits.length)))
    (t := { result with padding := computePadding bitLength }) (length_bits_result hsize rfl)
    (computePadding_lt bitLength) (bytes_ne_of_size hsize hpos)
  have hmap := map_shifted (s := s) rfl (bitLength - s.bits.length)
  rw [Nat.sub_add_cancel hle] at hmap
  rw [hmap] at hwritten
  have hloop : s.extendBitString bitLength result =
      ((List.range bitLength).foldl (fun (u : BitBuffer) i =>
      u.setBit i (if i < bitLength - s.bits.length then false
        else s.getBit (i - (bitLength - s.bits.length))))
      { result with padding := computePadding bitLength }).finalize := by
    simp only [extendBitString, length_bits, apply_ite]
  rw [hloop]
  exact hwritten

theorem bitString_spec {bitLength : Nat} (hne : l ≠ []) (hle : l.length ≤ bitLength)
    (hsize : result.size = computeBitstringLen bitLength) :
    ∃ t, bitString (l.map bitChar) bitLength result = .ok t ∧ t.Canonical ∧
      t.bits = List.replicate (bitLength - l.length) false ++ l := by
  have hpos := List.length_pos_of_ne_nil hne
  have hvalid : validateInputBitString (l.map bitChar) = .ok () := by
    have hfind : (l.map bitChar).find? (fun c => c ≠ 48 ∧ c ≠ 49) = none := by
      rw [List.find?_eq_none]
      intro c hc
      obtain ⟨v, -, rfl⟩ := List.mem_map.mp hc
      cases v <;> decide
    rw [validateInputBitString, if_neg (by rw [List.length_map]; omega), hfind]
  have hwritten := written_canonical _ setBitInternal_spec
    (fun i => if i < bitLength - l.length then false
      else l.getD (i - (bitLength - l.length)) false)
    (t := { result with padding := computePadding bitLength }) (length_bits_result hsize rfl)
    (computePadding_lt bitLength) (bytes_ne_of_size hsize (by omega))
  have hmap := map_range_shift (bitLength - l.length) l
  rw [Nat.sub_add_cancel hle] at hmap
  rw [hmap] at hwritten
  refine ⟨_, ?_, hwritten⟩
  have hchar : ∀ n, decide ((l.map bitChar).getD n 0 = 49) = l.getD n false := by
    intro n
    by_cases hn : n < l.length
    · rw [List.getD_eq_getElem _ _ (by simpa using hn), List.getD_eq_getElem _ _ hn,
        List.getElem_map]
      cases l[n] <;> decide
    · rw [List.getD_eq_default _ _ (by simpa using hn), List.getD_eq_default _ _ (by omega)]
      decide
  rw [bitString, hvalid]
  simp only [List.length_map, hchar, apply_ite]
  rfl

theorem rightShift_spec {shift : Nat} (hs : s.Canonical) (hle : shift ≤ s.bits.length)
    (hsize : result.size = s.size) :
    (s.rightShift shift result).Canonical ∧ (s.rightShift shift result).bits =
      List.replicate shift false ++ s.bits.take (s.bits.length - shift) := by
  have hlength : (({ result with padding := s.padding } : BitBuffer).bits).length =
      s.bits.length := by
    rw [length_bits, length_bits, bitLength, bitLength]
    exact congrArg (fun n => (n - 1) * 8 - s.padding) hsize
  have hwritten := written_canonical _ setBitInternal_spec
    (fun i => if i < shift then false else s.getBit (i - shift))
    (t := { result with padding := s.padding }) hlength hs.padding_lt (List.ne_nil_of_length_pos (by
      have hpos := List.length_pos_of_ne_nil hs.bytes_ne
      rw [size, size] at hsize
      show 0 < result.bytes.length
      omega))
  have hmap : ((List.range s.bits.length).map
      fun i => if i < shift then false else s.getBit (i - shift)) =
      List.replicate shift false ++ s.bits.take (s.bits.length - shift) := by
    have hall := congrArg (List.take s.bits.length) (map_shifted (s := s) rfl shift)
    rw [← List.map_take, List.take_range, Nat.min_eq_left (by omega), List.take_append,
      List.take_of_length_le (by simpa using hle), List.length_replicate] at hall
    exact hall
  rw [hmap] at hwritten
  have hloop : s.rightShift shift result =
      ((List.range s.bits.length).foldl (fun (u : BitBuffer) i =>
      u.setBitInternal (i + u.padding) (if i < shift then false else s.getBit (i - shift)))
      { result with padding := s.padding }).finalize := by
    simp only [rightShift, apply_ite, ← hlength, length_bits]
  rw [hloop]
  exact hwritten

theorem leftShift_spec {shift : Nat} (hs : s.Canonical) (hle : shift ≤ s.bits.length)
    (hsize : result.size = s.size) :
    (s.leftShift shift result).Canonical ∧ (s.leftShift shift result).bits =
      s.bits.drop shift ++ List.replicate shift false := by
  have hlength : (({ result with padding := s.padding } : BitBuffer).bits).length =
      s.bits.length := by
    rw [length_bits, length_bits, bitLength, bitLength]
    exact congrArg (fun n => (n - 1) * 8 - s.padding) hsize
  have hwritten := written_canonical _ setBitInternal_spec
    (fun i => if i < s.bits.length - shift then s.getBit (shift + i) else false)
    (t := { result with padding := s.padding }) hlength hs.padding_lt (List.ne_nil_of_length_pos (by
      have hpos := List.length_pos_of_ne_nil hs.bytes_ne
      rw [size, size] at hsize
      show 0 < result.bytes.length
      omega))
  have hmap : ((List.range s.bits.length).map
      fun i => if i < s.bits.length - shift then s.getBit (shift + i) else false) =
      s.bits.drop shift ++ List.replicate shift false := by
    refine List.ext_getElem (by simp; omega) fun i hi hi' => ?_
    rw [List.length_map, List.length_range] at hi
    rw [List.getElem_map, List.getElem_range]
    split_ifs with h
    · rw [List.getElem_append_left (by rw [List.length_drop]; exact h), List.getElem_drop,
        getBit_eq]
    · rw [List.getElem_append_right (by rw [List.length_drop]; omega), List.getElem_replicate]
  rw [hmap] at hwritten
  have hloop : s.leftShift shift result =
      ((List.range s.bits.length).foldl (fun (u : BitBuffer) i =>
      u.setBitInternal (i + u.padding)
        (if i < s.bits.length - shift then s.getBit (shift + i) else false))
      { result with padding := s.padding }).finalize := by
    simp only [leftShift, apply_ite, length_bits]
  rw [hloop]
  exact hwritten

/-! ## Bitwise operators, counting and blobs -/

theorem zipWith_drop {f : Byte → Byte → Byte} {g : Bool → Bool → Bool}
    (h : ∀ a b k, k < 8 → (f a b).getMsbD k = g (a.getMsbD k) (b.getMsbD k)) {t : BitBuffer}
    (hs : s.Canonical) (ht : t.Canonical) (hlength : s.bits.length = t.bits.length)
    (operator : String) :
    ∃ u, bitwise operator f t s = .ok u ∧ u.Canonical ∧ u.bits = List.zipWith g s.bits t.bits := by
  have hs' := hs.padding_lt
  have ht' := ht.padding_lt
  have hsne := List.length_pos_of_ne_nil hs.bytes_ne
  have htne := List.length_pos_of_ne_nil ht.bytes_ne
  rw [length_bits, length_bits] at hlength
  have hlength' := hlength
  rw [bitLength, bitLength, size, size] at hlength'
  have hpadding : s.padding = t.padding := by omega
  have hbytes : s.bytes.length = t.bytes.length := by omega
  obtain ⟨hcanonical, hfinal⟩ := finalize_canonical
    ⟨s.padding, List.zipWith f s.bytes t.bytes⟩ hs' (List.ne_nil_of_length_pos (by
      rw [List.length_zipWith]
      omega))
  refine ⟨_, by rw [bitwise, if_neg (not_not.mpr hlength)], hcanonical, ?_⟩
  rw [hfinal, bits, bits_zipWith h hbytes, List.drop_zipWith, bits, bits, hpadding]

theorem bitwiseNot_spec (hs : s.Canonical) :
    s.bitwiseNot.Canonical ∧ s.bitwiseNot.bits = s.bits.map not := by
  obtain ⟨hcanonical, hfinal⟩ := finalize_canonical
    ⟨s.padding, s.bytes.map fun b => ~~~b⟩ hs.padding_lt (by
      rw [ne_eq, List.map_eq_nil_iff]
      exact hs.bytes_ne)
  refine ⟨hcanonical, ?_⟩
  have hmap := bits_map (f := fun b => ~~~b) (g := not)
    (fun b k hk => by rw [BitVec.getMsbD_not]; simp [hk]) s.bytes
  rw [bitwiseNot, hfinal, bits, hmap, ← List.map_drop, bits]

theorem bitCount_eq (hs : s.Canonical) : s.bitCount = s.bits.count true := by
  have hbyte : ∀ (b : Byte) (n : Nat), (List.range 8).foldl
      (fun count i => if b &&& (1#8 <<< i) ≠ 0 then count + 1 else count) n =
        n + (byteBits b).count true := by
    have hzero : ∀ b : Byte, (List.range 8).foldl
        (fun count i => if b &&& (1#8 <<< i) ≠ 0 then count + 1 else count) 0 =
          (byteBits b).count true := by
      decide +kernel
    have hadd : ∀ (b : Byte) (l : List Nat) (m n : Nat), l.foldl
        (fun count i => if b &&& (1#8 <<< i) ≠ 0 then count + 1 else count) (m + n) =
          m + l.foldl (fun count i => if b &&& (1#8 <<< i) ≠ 0 then count + 1 else count) n := by
      intro b l
      induction l with
      | nil => exact fun _ _ => rfl
      | cons i l ih =>
          intro m n
          rw [List.foldl_cons, List.foldl_cons]
          split_ifs
          · exact ih m (n + 1)
          · exact ih m n
    intro b n
    rw [← hzero b]
    exact hadd b (List.range 8) n 0
  have hfold : ∀ (bytes : List Byte) (n : Nat), bytes.foldl (fun count b => (List.range 8).foldl
      (fun count i => if b &&& (1#8 <<< i) ≠ 0 then count + 1 else count) count) n =
        n + (ByteBits.bits bytes).count true := by
    intro bytes
    induction bytes with
    | nil => exact fun _ => rfl
    | cons b bytes ih =>
        intro n
        rw [List.foldl_cons, hbyte, ih, bits_cons, List.count_append, Nat.add_assoc]
  have hsplit := congrArg (List.count true)
    (List.take_append_drop s.padding (ByteBits.bits s.bytes))
  rw [List.count_append, hs.padding_set, List.count_replicate_self] at hsplit
  rw [bitCount, hfold, ← hsplit, bits]
  omega

theorem bits_bitToBlob (hs : s.Canonical) :
    ByteBits.bits s.bitToBlob = List.replicate s.padding false ++ s.bits := by
  have hmask : ∀ (b : Byte) (p : Fin 8), byteBits (b &&& ((1#8 <<< (8 - p.val)) - 1)) =
      List.replicate p.val false ++ (byteBits b).drop p.val := by
    decide +kernel
  cases hbytes : s.bytes with
  | nil => exact absurd hbytes hs.bytes_ne
  | cons b bytes =>
      have hb := hmask b ⟨s.padding, hs.padding_lt⟩
      rw [bitToBlob, getFirstByte, hbytes, List.headD_cons, List.tail_cons, bits_cons, hb, bits,
        hbytes, bits_cons, List.drop_append_of_le_length (by simpa using hs.padding_lt.le),
        List.append_assoc]

theorem canonical_setBit (hs : s.Canonical) (n : Nat) (v : Bool) : (s.setBit n v).Canonical := by
  have hbytes : (s.setBitInternal (n + s.padding) v).bytes ≠ [] :=
    List.ne_nil_of_length_pos (by
      rw [setBitInternal_length]
      exact List.length_pos_of_ne_nil hs.bytes_ne)
  exact (finalize_canonical (s.setBitInternal (n + s.padding) v) hs.padding_lt hbytes).1

end BitBuffer

open BitBuffer

/-- The operations on BIT values are operations on lists of bits, whatever the buffers hold that
they write to. -/
theorem bit_values :
    (∀ l : List Bool, l ≠ [] → ∃ s, toBitString (l.map bitChar) = .ok (s.size, s) ∧
      s.Canonical ∧ s.bits = l ∧ s.toString = l.map bitChar) ∧
    (∀ digits : List UInt8, digits ≠ [] → (∀ c ∈ digits, characterIsHex c = true) →
      ∃ s, toBitString (120 :: digits) = .ok (s.size, s) ∧ s.Canonical ∧
        s.bits = digits.flatMap hexBits ∧ s.toString = (digits.flatMap hexBits).map bitChar) ∧
    (∀ s t : BitBuffer, s.Canonical → t.Canonical → s.bits = t.bits → s = t) ∧
    (∀ s : BitBuffer, s.Canonical → s.bitLength = s.bits.length ∧
      s.bitCount = s.bits.count true ∧
      (∀ n (h : n < s.bits.length), s.getBit n = s.bits[n]) ∧
      (∀ n v, (s.setBit n v).Canonical ∧ (s.setBit n v).bits = s.bits.set n v) ∧
      ByteBits.bits s.bitToBlob = List.replicate s.padding false ++ s.bits ∧
      ByteBits.ofBytes s.bitToBlob = ByteBits.ofBits s.bits) ∧
    (∀ s : BitBuffer, s.Canonical → ∀ bitLength, s.bits.length ≤ bitLength → 0 < bitLength →
      ∀ result : BitBuffer, result.size = computeBitstringLen bitLength →
        (s.extendBitString bitLength result).Canonical ∧
          (s.extendBitString bitLength result).bits =
            List.replicate (bitLength - s.bits.length) false ++ s.bits) ∧
    (∀ l : List Bool, l ≠ [] → ∀ bitLength, l.length ≤ bitLength → ∀ result : BitBuffer,
      result.size = computeBitstringLen bitLength →
        ∃ t, bitString (l.map bitChar) bitLength result = .ok t ∧ t.Canonical ∧
          t.bits = List.replicate (bitLength - l.length) false ++ l) ∧
    (∀ s : BitBuffer, s.Canonical → ∀ shift, shift ≤ s.bits.length → ∀ result : BitBuffer,
      result.size = s.size →
        ((s.rightShift shift result).Canonical ∧ (s.rightShift shift result).bits =
          List.replicate shift false ++ s.bits.take (s.bits.length - shift)) ∧
        (s.leftShift shift result).Canonical ∧ (s.leftShift shift result).bits =
          s.bits.drop shift ++ List.replicate shift false) ∧
    (∀ s t : BitBuffer, s.Canonical → t.Canonical → s.bits.length = t.bits.length →
      (∃ u, bitwiseAnd t s = .ok u ∧ u.Canonical ∧ u.bits = List.zipWith and s.bits t.bits) ∧
      (∃ u, bitwiseOr t s = .ok u ∧ u.Canonical ∧ u.bits = List.zipWith or s.bits t.bits) ∧
      ∃ u, bitwiseXor t s = .ok u ∧ u.Canonical ∧
        u.bits = List.zipWith Bool.xor s.bits t.bits) ∧
    ∀ s : BitBuffer, s.Canonical →
      s.bitwiseNot.Canonical ∧ s.bitwiseNot.bits = s.bits.map not := by
  refine ⟨?_, ?_, fun s t => canonical_injective, ?_, ?_, ?_, ?_, ?_, fun s => bitwiseNot_spec⟩
  · intro l hne
    obtain ⟨s, hs, hcanonical, hbits, hsize⟩ := toBit_map hne
    refine ⟨s, ?_, hcanonical, hbits, ?_⟩
    · have hpos := List.length_pos_of_ne_nil hne
      have hhead : (l.map bitChar).headD 0 ≠ 120 := by
        cases l with
        | nil => exact absurd rfl hne
        | cons v l =>
            have hchar : ∀ v, bitChar v ≠ 120 := by decide
            exact hchar v
      rw [toBitString, tryGetBitStringSize, List.length_map, if_neg hpos.ne', if_neg hhead,
        if_neg hpos.ne', hs, hsize]
      rfl
    · rw [toString_eq s hcanonical.padding_lt hcanonical.bytes_ne, hbits]
  · intro digits hne hhex
    obtain ⟨s, hs, hcanonical, hbits, hsize⟩ := toBit_hex hne hhex
    refine ⟨s, ?_, hcanonical, hbits, ?_⟩
    · have hpos := List.length_pos_of_ne_nil hne
      have hcount : ¬ 4 * ((120 :: digits).length - 1) = 0 := by
        rw [List.length_cons]
        omega
      rw [toBitString, tryGetBitStringSize, if_neg (by simp), List.headD_cons, if_pos rfl,
        if_neg hcount, hs, hsize]
      rfl
    · rw [toString_eq s hcanonical.padding_lt hcanonical.bytes_ne, hbits]
  · intro s hs
    have hblob := bits_bitToBlob hs
    refine ⟨length_bits.symm, bitCount_eq hs, fun n h => getBit_eq h,
      fun n v => ⟨canonical_setBit hs n v, (setBit_spec s n v).2.2⟩, hblob, ?_⟩
    rw [← ByteBits.ofBits_bits, hblob, ByteBits.ofBits_replicate_append]
  · intro s _ bitLength hle hpos result hsize
    exact extendBitString_spec hle hpos hsize
  · intro l hne bitLength hle result hsize
    exact bitString_spec hne hle hsize
  · intro s hs shift hle result hsize
    exact ⟨rightShift_spec hs hle hsize, leftShift_spec hs hle hsize⟩
  · intro s t hs ht hlength
    refine ⟨zipWith_drop ?_ hs ht hlength "AND", zipWith_drop ?_ hs ht hlength "OR",
      zipWith_drop ?_ hs ht hlength "XOR"⟩
    · exact fun a b k _ => BitVec.getMsbD_and
    · exact fun a b k _ => BitVec.getMsbD_or
    · exact fun a b k _ => BitVec.getMsbD_xor

theorem bit_values_five : ∃ s, toBitString ([true, false, true, true, false].map bitChar) =
    .ok (s.size, s) ∧ s.Canonical ∧ s.bits = [true, false, true, true, false] ∧
      s.toString = [true, false, true, true, false].map bitChar :=
  bit_values.1 [true, false, true, true, false] (by decide)

end MiniDuck
