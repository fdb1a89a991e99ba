import MiniDuck.ByteBits
import MiniDuck.TerminatedCode

/-!
# LEB128 integers

Integers of `w` bits as groups of seven bits, the lowest first, where the
highest bit of a byte says that another one follows. `unsignedReading` and
`signedReading` are what some groups stand for. The encoders write groups
that read as the value; the decoders reduce what they read to `w` bits
(`decodeUnsigned_eq`, `decodeSigned_eq`), which loses the bits of the last
admissible group that have no place in the type.
-/

namespace MiniDuck

namespace EncodingUtil

open TerminatedCode

variable {w : Nat}

/-! ## Groups -/

/-- A group of seven bits with the mark that another one follows. -/
def more (byte : Byte) : Bool := decide (byte &&& 0x80 ≠ 0)

def payload (byte : Byte) : Nat := byte.toNat % 128

theorem payload_lt (byte : Byte) : payload byte < 128 := Nat.mod_lt _ (by decide)

theorem payload_and : ∀ byte : Byte, (byte &&& 0x7F).toNat = payload byte := by decide

theorem payload_or : ∀ byte : Byte, payload (byte ||| 0x80) = payload byte := by decide

theorem more_or : ∀ byte : Byte, more (byte ||| 0x80) = true := by decide

theorem more_of_lt : ∀ byte : Byte, byte.toNat < 128 → more byte = false := by decide

theorem signBit_iff : ∀ byte : Byte, byte &&& 0x40 ≠ 0 ↔ 64 ≤ payload byte := by decide

def lowGroup (value : BitVec w) : Byte := (value &&& 0x7F).setWidth 8

theorem toNat_lowGroup (hw : 8 ≤ w) (value : BitVec w) :
    (lowGroup value).toNat = value.toNat % 128 := by
  have hle : 2 ^ 8 ≤ 2 ^ w := Nat.pow_le_pow_right (by decide) hw
  have hmask : (0x7F : BitVec w).toNat = 2 ^ 7 - 1 := by
    have hlit : (0x7F : BitVec w).toNat = 0x7F % 2 ^ w := BitVec.toNat_ofNat 0x7F w
    rw [hlit, Nat.mod_eq_of_lt (by omega)]
    rfl
  rw [lowGroup, BitVec.toNat_setWidth, BitVec.toNat_and, hmask, Nat.and_two_pow_sub_one_eq_mod]
  omega

theorem toInt_emod (value : BitVec w) (hw : 7 ≤ w) : value.toInt % 128 = value.toNat % 128 := by
  have hdvd : (128 : Int) ∣ 2 ^ w := pow_dvd_pow 2 hw
  rw [BitVec.toInt_eq_toNat_cond]
  split
  · rfl
  · push_cast
    omega

theorem payload_lowGroup (hw : 8 ≤ w) (value : BitVec w) :
    (payload (lowGroup value) : Int) = value.toInt % 128 := by
  rw [payload, toNat_lowGroup hw, toInt_emod value (by omega), Nat.mod_mod]
  rfl

theorem toInt_shift (value : BitVec w) : (value.sshiftRight 7).toInt = value.toInt / 128 := by
  rw [BitVec.toInt_sshiftRight, Int.shiftRight_eq_div_pow]
  rfl

/-! ## The code -/

/-- `EncodeUnsignedLEB128`, with the bytes that it writes to `target`. -/
def encodeUnsignedLEB128 (value : BitVec w) : List Byte :=
  let byte := (value &&& 0x7F).setWidth 8
  if value >>> 7 ≠ 0 then (byte ||| 0x80) :: encodeUnsignedLEB128 (value >>> 7) else [byte]
termination_by value.toNat
decreasing_by
  rename_i h
  rw [BitVec.toNat_ushiftRight, Nat.shiftRight_eq_div_pow]
  have hne : value.toNat / 2 ^ 7 ≠ 0 := by
    rwa [← Nat.shiftRight_eq_div_pow, ← BitVec.toNat_ushiftRight, ne_eq, ← BitVec.toNat_zero,
      BitVec.toNat_inj]
  omega

/-- Whether `EncodeSignedLEB128` needs no more bytes after `byte`. -/
def signedDone (value : BitVec w) (byte : Byte) : Prop :=
  (value = 0 ∧ byte &&& 0x40 = 0) ∨ (value = -1 ∧ byte &&& 0x40 ≠ 0)

instance (value : BitVec w) (byte : Byte) : Decidable (signedDone value byte) :=
  inferInstanceAs (Decidable (_ ∨ _))

/-- The last group is the one whose sign is that of the whole value. -/
theorem signedDone_iff (hw : 8 ≤ w) (value : BitVec w) :
    signedDone (value.sshiftRight 7) (lowGroup value) ↔ -64 ≤ value.toInt ∧ value.toInt < 64 := by
  have hgroup := payload_lowGroup hw value
  have hzero : value.sshiftRight 7 = 0 ↔ value.toInt / 128 = 0 := by
    rw [← toInt_shift, ← BitVec.toInt_inj]
    simp
  have hneg : value.sshiftRight 7 = -1 ↔ value.toInt / 128 = -1 := by
    have hones : (-1 : BitVec w) = BitVec.allOnes w := BitVec.neg_one_eq_allOnes
    rw [← toInt_shift, ← BitVec.toInt_inj, hones, BitVec.toInt_allOnes, if_pos (by omega)]
  have hclear := (signBit_iff (lowGroup value)).not
  rw [not_not] at hclear
  rw [signedDone, signBit_iff, hclear, hzero, hneg]
  omega

/-- `EncodeSignedLEB128`. Types have at least one byte. -/
def encodeSignedLEB128 (hw : 8 ≤ w) (value : BitVec w) : List Byte :=
  let byte := (value &&& 0x7F).setWidth 8
  if signedDone (value.sshiftRight 7) byte then [byte]
  else (byte ||| 0x80) :: encodeSignedLEB128 hw (value.sshiftRight 7)
termination_by value.toInt.natAbs
decreasing_by
  rename_i h
  have hbig := (signedDone_iff hw value).not.mp h
  rw [toInt_shift]
  omega

/-- The loop of both decoders. Returns the number of bytes read, and with the bits of
the result the final `shift` and the last byte. -/
def decodeGroups (w : Nat) (source : Memory Byte) (result : BitVec w) (shift offset : Nat) :
    Nat × Except String (BitVec w × Nat × Byte) :=
  let byte := source offset
  let offset := offset + 1
  if shift ≥ w then (offset, .error "Failed to decode LEB128 integer: data may be corrupt")
  else
    let result := result ||| (byte &&& 0x7F).setWidth w <<< shift
    let shift := shift + 7
    if byte &&& 0x80 ≠ 0 then decodeGroups w source result shift offset
    else (offset, .ok (result, shift, byte))
termination_by w - shift

def decodeUnsignedLEB128 (w : Nat) (source : Memory Byte) : Nat × Except String (BitVec w) :=
  let decoded := decodeGroups w source 0 0 0
  (decoded.1, decoded.2.map fun last => last.1)

def decodeSignedLEB128 (w : Nat) (source : Memory Byte) : Nat × Except String (BitVec w) :=
  let decoded := decodeGroups w source 0 0 0
  (decoded.1, decoded.2.map fun (result, shift, byte) =>
    if shift < w ∧ byte &&& 0x40 ≠ 0 then result ||| -((1 : BitVec w) <<< shift) else result)

/-! ## What groups stand for -/

def unsignedReading (bytes : List Byte) : Nat := Nat.ofDigits 128 (bytes.map payload)

/-- The same in two's complement: the highest digit has a sign. -/
def signedReading (bytes : List Byte) : Int :=
  unsignedReading bytes - if 64 ≤ payload (bytes.getLastD 0) then 128 ^ bytes.length else 0

theorem unsignedReading_cons (byte : Byte) (bytes : List Byte) :
    unsignedReading (byte :: bytes) = payload byte + 128 * unsignedReading bytes :=
  Nat.ofDigits_cons ..

theorem unsignedReading_singleton (byte : Byte) : unsignedReading [byte] = payload byte :=
  Nat.ofDigits_singleton ..

theorem unsignedReading_append (bytes bytes' : List Byte) :
    unsignedReading (bytes ++ bytes') =
      unsignedReading bytes + 128 ^ bytes.length * unsignedReading bytes' := by
  rw [unsignedReading, List.map_append, Nat.ofDigits_append, List.length_map]
  rfl

theorem unsignedReading_lt (bytes : List Byte) : unsignedReading bytes < 128 ^ bytes.length := by
  have hlt := Nat.ofDigits_lt_base_pow_length (b := 128) (by decide)
    (l := bytes.map payload) fun d hd => by
      obtain ⟨byte, -, rfl⟩ := List.mem_map.mp hd
      exact payload_lt byte
  rwa [List.length_map] at hlt

theorem signedReading_singleton (byte : Byte) :
    signedReading [byte] = payload byte - if 64 ≤ payload byte then 128 else 0 := by
  rw [signedReading, unsignedReading_singleton]
  rfl

theorem signedReading_cons (byte : Byte) {bytes : List Byte} (h : bytes ≠ []) :
    signedReading (byte :: bytes) = payload byte + 128 * signedReading bytes := by
  obtain ⟨next, rest, rfl⟩ := List.exists_cons_of_ne_nil h
  have hlast : (byte :: next :: rest).getLastD 0 = (next :: rest).getLastD 0 := rfl
  rw [signedReading, signedReading, hlast, unsignedReading_cons, List.length_cons]
  split
  · push_cast
    ring
  · push_cast
    ring

/-! ## Encoding -/

theorem toNat_shift (value : BitVec w) : (value >>> 7).toNat = value.toNat / 128 := by
  rw [BitVec.toNat_ushiftRight, Nat.shiftRight_eq_div_pow]

theorem shift_ne_zero (value : BitVec w) : value >>> 7 ≠ 0 ↔ 128 ≤ value.toNat := by
  rw [ne_eq, ← BitVec.toNat_inj, toNat_shift, BitVec.ofNat_eq_ofNat, BitVec.toNat_zero]
  omega

variable {value : BitVec w}

theorem encodeUnsigned_of_lt (h : value.toNat < 128) :
    encodeUnsignedLEB128 value = [lowGroup value] := by
  rw [encodeUnsignedLEB128, if_neg (by rw [shift_ne_zero]; omega), lowGroup]

theorem encodeUnsigned_of_ge (h : 128 ≤ value.toNat) : encodeUnsignedLEB128 value =
      (lowGroup value ||| 0x80) :: encodeUnsignedLEB128 (value >>> 7) := by
  rw [encodeUnsignedLEB128, if_pos ((shift_ne_zero value).mpr h), lowGroup]

/-- The groups of a value, and how many it needs. -/
theorem encodeUnsigned_spec (hw : 8 ≤ w) : (n : Nat) → (value : BitVec w) →
    value.toNat < 128 ^ (n + 1) →
      Terminated more (encodeUnsignedLEB128 value) ∧
      unsignedReading (encodeUnsignedLEB128 value) = value.toNat ∧
      (encodeUnsignedLEB128 value).length ≤ n + 1 := by
  intro n
  induction n with
  | zero =>
      intro value hvalue
      have hlow := toNat_lowGroup hw value
      rw [encodeUnsigned_of_lt (by omega)]
      refine ⟨terminated_singleton (more_of_lt _ (by omega)), ?_, Nat.le_refl 1⟩
      rw [unsignedReading_singleton, payload]
      omega
  | succ n ih =>
      intro value hvalue
      have hlow := toNat_lowGroup hw value
      rcases Nat.lt_or_ge value.toNat 128 with hlt | hge
      · rw [encodeUnsigned_of_lt hlt]
        refine ⟨terminated_singleton (more_of_lt _ (by omega)), ?_, by simp⟩
        rw [unsignedReading_singleton, payload]
        omega
      · rw [Nat.pow_succ] at hvalue
        obtain ⟨hword, hread, hlen⟩ := ih (value >>> 7) (by rw [toNat_shift]; omega)
        rw [encodeUnsigned_of_ge hge]
        refine ⟨hword.cons (more_or _), ?_, Nat.succ_le_succ hlen⟩
        rw [unsignedReading_cons, hread, payload_or, payload, toNat_shift]
        omega

theorem encodeSigned_of_small (hw : 8 ≤ w) (h : -64 ≤ value.toInt ∧ value.toInt < 64) :
    encodeSignedLEB128 hw value = [lowGroup value] := by
  rw [encodeSignedLEB128, ← lowGroup, if_pos ((signedDone_iff hw value).mpr h)]

theorem encodeSigned_of_large (hw : 8 ≤ w) (h : ¬ (-64 ≤ value.toInt ∧ value.toInt < 64)) :
    encodeSignedLEB128 hw value =
      (lowGroup value ||| 0x80) :: encodeSignedLEB128 hw (value.sshiftRight 7) := by
  rw [encodeSignedLEB128, ← lowGroup, if_neg ((signedDone_iff hw value).not.mpr h)]

theorem encodeSigned_spec (hw : 8 ≤ w) : (n : Nat) → (value : BitVec w) →
    -(64 * 128 ^ n) ≤ value.toInt ∧ value.toInt < 64 * 128 ^ n →
      Terminated more (encodeSignedLEB128 hw value) ∧
      signedReading (encodeSignedLEB128 hw value) = value.toInt ∧
      (encodeSignedLEB128 hw value).length ≤ n + 1 := by
  have hsmall : ∀ value : BitVec w, -64 ≤ value.toInt ∧ value.toInt < 64 →
      Terminated more (encodeSignedLEB128 hw value) ∧
      signedReading (encodeSignedLEB128 hw value) = value.toInt ∧
      (encodeSignedLEB128 hw value).length = 1 := by
    intro value h
    have hpayload := payload_lowGroup hw value
    have hlow := toNat_lowGroup hw value
    rw [encodeSigned_of_small hw h]
    refine ⟨terminated_singleton (more_of_lt _ (by omega)), ?_, rfl⟩
    rw [signedReading_singleton, hpayload]
    split <;> omega
  intro n
  induction n with
  | zero =>
      intro value h
      rw [pow_zero, mul_one] at h
      obtain ⟨hword, hread, hlen⟩ := hsmall value h
      exact ⟨hword, hread, hlen.le⟩
  | succ n ih =>
      intro value h
      by_cases hdone : -64 ≤ value.toInt ∧ value.toInt < 64
      · obtain ⟨hword, hread, hlen⟩ := hsmall value hdone
        exact ⟨hword, hread, by omega⟩
      · have hpayload := payload_lowGroup hw value
        obtain ⟨hword, hread, hlen⟩ := ih (value.sshiftRight 7) (by
          rw [toInt_shift]
          rw [pow_succ] at h
          omega)
        rw [encodeSigned_of_large hw hdone]
        refine ⟨hword.cons (more_or _), ?_, Nat.succ_le_succ hlen⟩
        rw [signedReading_cons _ hword.1, hread, payload_or, hpayload, toInt_shift]
        omega

/-! ## Decoding -/

def limit (w : Nat) : Nat := (w + 6) / 7

theorem or_group {k r : Nat} (hr : r < 128 ^ k) (byte : Byte) :
    BitVec.ofNat w r ||| (byte &&& 0x7F).setWidth w <<< (7 * k) =
      BitVec.ofNat w (r + 128 ^ k * payload byte) := by
  have hpow : 128 ^ k = 2 ^ (7 * k) := by rw [Nat.pow_mul]
  rw [hpow] at hr ⊢
  refine BitVec.eq_of_getLsbD_eq fun i hi => ?_
  rw [BitVec.getLsbD_or, BitVec.getLsbD_ofNat, BitVec.getLsbD_shiftLeft, BitVec.getLsbD_setWidth,
    BitVec.getLsbD_ofNat, Nat.add_comm r, Nat.testBit_two_pow_mul_add _ hr, ← payload_and,
    BitVec.testBit_toNat, decide_eq_true hi, Bool.true_and, Bool.true_and, Bool.true_and]
  by_cases hlt : i < 7 * k
  · rw [if_pos hlt, decide_eq_true hlt]
    exact Bool.or_false _
  · have hzero : r.testBit i = false :=
      Nat.testBit_lt_two_pow (hr.trans_le (Nat.pow_le_pow_right (by decide) (by omega)))
    rw [if_neg hlt, decide_eq_false hlt, hzero, decide_eq_true (by omega : i - 7 * k < w)]
    rfl

theorem ofInt_sub_two_pow (w r s : Nat) : BitVec.ofInt w (r - 2 ^ s) =
    BitVec.ofNat w r + -((1 : BitVec w) <<< s) := by
  have hpow : BitVec.ofInt w (2 ^ s : Int) = (1 : BitVec w) <<< s := by
    have hcast : (2 ^ s : Int) = ((2 ^ s : Nat) : Int) := by push_cast; rfl
    rw [hcast, BitVec.ofInt_natCast]
    refine BitVec.eq_of_toNat_eq ?_
    rw [BitVec.toNat_ofNat]
    exact (BitVec.toNat_twoPow w s).symm
  rw [Int.sub_eq_add_neg, BitVec.ofInt_add, BitVec.ofInt_neg, hpow, BitVec.ofInt_natCast]

theorem or_neg {s r : Nat} (hr : r < 2 ^ s) :
    BitVec.ofNat w r ||| -((1 : BitVec w) <<< s) = BitVec.ofInt w (r - 2 ^ s) := by
  have hones : -((1 : BitVec w) <<< s) = BitVec.allOnes w <<< s := by
    rw [BitVec.shiftLeft_eq_mul_twoPow (BitVec.allOnes w), ← BitVec.neg_one_eq_allOnes,
      BitVec.neg_mul, BitVec.one_mul]
    rfl
  have hand : BitVec.ofNat w r &&& -((1 : BitVec w) <<< s) = 0#w := by
    refine BitVec.eq_of_getLsbD_eq fun i hi => ?_
    rw [hones, BitVec.getLsbD_and, BitVec.getLsbD_ofNat, BitVec.getLsbD_shiftLeft,
      BitVec.getLsbD_zero]
    by_cases hlt : i < s
    · rw [decide_eq_true hlt, Bool.not_true, Bool.and_false, Bool.false_and, Bool.and_false]
    · have hzero : r.testBit i = false :=
        Nat.testBit_lt_two_pow (hr.trans_le (Nat.pow_le_pow_right (by decide) (by omega)))
      rw [hzero, Bool.and_false, Bool.false_and]
  rw [← BitVec.add_eq_or_of_and_eq_zero _ _ hand, ofInt_sub_two_pow]

variable {source : Memory Byte}

theorem read_succ (k : Nat) : source.read 0 (k + 1) = source.read 0 k ++ [source k] := by
  rw [Memory.read_add, Nat.zero_add]
  rfl

theorem unsignedReading_read_succ (k : Nat) : unsignedReading (source.read 0 (k + 1)) =
    unsignedReading (source.read 0 k) + 128 ^ k * payload (source k) := by
  rw [read_succ, unsignedReading_append, unsignedReading_singleton, Memory.length_read]

theorem unsignedReading_read_lt (k : Nat) : unsignedReading (source.read 0 k) < 128 ^ k := by
  have hlt := unsignedReading_lt (source.read 0 k)
  rwa [Memory.length_read] at hlt

theorem more_iff (byte : Byte) : byte &&& 0x80 ≠ 0 ↔ more byte = true := decide_eq_true_iff.symm

/-- What one turn of the loop does after `k` groups. -/
theorem decodeGroups_step {k : Nat} (hk : 7 * k < w) :
    decodeGroups w source (BitVec.ofNat w (unsignedReading (source.read 0 k))) (7 * k) k =
      if more (source k) = true then
        decodeGroups w source (BitVec.ofNat w (unsignedReading (source.read 0 (k + 1))))
          (7 * (k + 1)) (k + 1)
      else (k + 1, .ok (BitVec.ofNat w (unsignedReading (source.read 0 (k + 1))), 7 * (k + 1),
        source k)) := by
  rw [decodeGroups, if_neg (by omega), or_group (unsignedReading_read_lt k),
    ← unsignedReading_read_succ, Nat.mul_succ]
  exact if_congr (more_iff (source k)) rfl rfl

/-- The loop, where a word ends within the admissible groups. -/
theorem decodeGroups_ok {n : Nat} (hn : 7 * n < w)
    (hword : Terminated more (source.read 0 (n + 1))) : (m k : Nat) → k + m = n →
      decodeGroups w source (BitVec.ofNat w (unsignedReading (source.read 0 k))) (7 * k) k =
        (n + 1, .ok (BitVec.ofNat w (unsignedReading (source.read 0 (n + 1))), 7 * (n + 1),
          source n)) := by
  obtain ⟨hmore, hlast⟩ := terminated_read.mp hword
  intro m
  induction m with
  | zero =>
      intro k hk
      obtain rfl : k = n := hk
      rw [decodeGroups_step hn, if_neg (by rw [hlast]; exact Bool.false_ne_true)]
  | succ m ih =>
      intro k hk
      rw [decodeGroups_step (by omega), if_pos (hmore k (by omega))]
      exact ih (k + 1) (by omega)

/-- The loop, where no word ends within the admissible groups. -/
theorem decodeGroups_error (hmore : ∀ i < limit w, more (source i) = true) : (m k : Nat) →
    k + m = limit w →
      decodeGroups w source (BitVec.ofNat w (unsignedReading (source.read 0 k))) (7 * k) k =
        (limit w + 1, .error "Failed to decode LEB128 integer: data may be corrupt") := by
  intro m
  induction m with
  | zero =>
      intro k hk
      have hge : 7 * k ≥ w := by
        rw [limit] at hk
        omega
      rw [decodeGroups, if_pos hge, ← hk, Nat.add_zero]
  | succ m ih =>
      intro k hk
      have hlt : 7 * k < w := by
        rw [limit] at hk
        omega
      rw [decodeGroups_step hlt, if_pos (hmore k (by omega))]
      exact ih (k + 1) (by omega)

theorem decodeGroups_cases (w : Nat) (source : Memory Byte) :
    (∃ n < limit w, Terminated more (source.read 0 (n + 1)) ∧ decodeGroups w source 0 0 0 =
      (n + 1, .ok (BitVec.ofNat w (unsignedReading (source.read 0 (n + 1))), 7 * (n + 1),
        source n))) ∨
    ((∀ i < limit w, more (source i) = true) ∧ decodeGroups w source 0 0 0 =
      (limit w + 1, .error "Failed to decode LEB128 integer: data may be corrupt")) := by
  rcases terminated_cases more source (limit w) with ⟨n, hn, hword⟩ | hmore
  · have hlt : 7 * n < w := by
      rw [limit] at hn
      omega
    exact Or.inl ⟨n, hn, hword, decodeGroups_ok hlt hword n 0 (Nat.zero_add n)⟩
  · exact Or.inr ⟨hmore, decodeGroups_error hmore (limit w) 0 (Nat.zero_add _)⟩

theorem signedReading_read_succ (n : Nat) : signedReading (source.read 0 (n + 1)) =
    unsignedReading (source.read 0 (n + 1)) -
      if 64 ≤ payload (source n) then 128 ^ (n + 1) else 0 := by
  rw [signedReading, Memory.length_read, read_succ, List.getLastD_concat]

/-- The sign extension: what is set above the groups is their sign, and a sign above the
type is worth nothing. -/
theorem ofInt_signedReading (n : Nat) :
    (if 7 * (n + 1) < w ∧ source n &&& 0x40 ≠ 0 then
      BitVec.ofNat w (unsignedReading (source.read 0 (n + 1))) |||
        -((1 : BitVec w) <<< (7 * (n + 1)))
      else BitVec.ofNat w (unsignedReading (source.read 0 (n + 1)))) =
      BitVec.ofInt w (signedReading (source.read 0 (n + 1))) := by
  have hpow : 128 ^ (n + 1) = 2 ^ (7 * (n + 1)) := by rw [Nat.pow_mul]
  have hcast : (128 : Int) ^ (n + 1) = 2 ^ (7 * (n + 1)) := by rw [pow_mul]; rfl
  have hlt : unsignedReading (source.read 0 (n + 1)) < 2 ^ (7 * (n + 1)) :=
    hpow ▸ unsignedReading_read_lt (n + 1)
  rw [signedReading_read_succ, hcast]
  by_cases hsign : 64 ≤ payload (source n)
  · have hbit := (signBit_iff (source n)).mpr hsign
    rw [if_pos hsign]
    by_cases hroom : 7 * (n + 1) < w
    · rw [if_pos ⟨hroom, hbit⟩, or_neg hlt]
    · rw [if_neg fun h => hroom h.1, ofInt_sub_two_pow, BitVec.shiftLeft_eq_zero (by omega),
        BitVec.neg_zero, BitVec.add_zero]
  · rw [if_neg fun h => hsign ((signBit_iff (source n)).mp h.2), if_neg hsign, sub_zero,
      BitVec.ofInt_natCast]

theorem decode_cases (w : Nat) (source : Memory Byte) :
    (∃ n < limit w, Terminated more (source.read 0 (n + 1)) ∧
      decodeUnsignedLEB128 w source =
        (n + 1, .ok (BitVec.ofNat w (unsignedReading (source.read 0 (n + 1))))) ∧
      decodeSignedLEB128 w source =
        (n + 1, .ok (BitVec.ofInt w (signedReading (source.read 0 (n + 1)))))) ∨
    ((∀ i < limit w, more (source i) = true) ∧
      decodeUnsignedLEB128 w source =
        (limit w + 1, .error "Failed to decode LEB128 integer: data may be corrupt") ∧
      decodeSignedLEB128 w source =
        (limit w + 1, .error "Failed to decode LEB128 integer: data may be corrupt")) := by
  rcases decodeGroups_cases w source with ⟨n, hn, hword, heq⟩ | ⟨hmore, heq⟩
  · refine Or.inl ⟨n, hn, hword, ?_, ?_⟩
    · rw [decodeUnsignedLEB128, heq]
      rfl
    · rw [decodeSignedLEB128, heq, ← ofInt_signedReading]
      rfl
  · refine Or.inr ⟨hmore, ?_, ?_⟩
    · rw [decodeUnsignedLEB128, heq]
      rfl
    · rw [decodeSignedLEB128, heq]
      rfl

/-! ## Round trips -/

/-- Decoding gives back what was encoded, whatever follows it. No encoding is the
beginning of another one, and none has more groups than the decoder admits. -/
structure RoundTrips {α : Type} (bound : Nat) (encode : α → List Byte)
    (decode : Memory Byte → Nat × Except String α) : Prop where
  decoded : ∀ value (source : Memory Byte),
    source.read 0 (encode value).length = encode value →
      decode source = ((encode value).length, .ok value)
  separate : ∀ value value', encode value <+: encode value' → encode value = encode value'
  length_le : ∀ value, (encode value).length ≤ bound

/-- A word that the decoder finds is the one that was encoded. -/
theorem decode_of_terminated {bytes : List Byte} (hword : Terminated more bytes)
    (hlen : bytes.length ≤ limit w) (hread : source.read 0 bytes.length = bytes) :
    decodeUnsignedLEB128 w source =
      (bytes.length, .ok (BitVec.ofNat w (unsignedReading bytes))) ∧
    decodeSignedLEB128 w source = (bytes.length, .ok (BitVec.ofInt w (signedReading bytes))) := by
  have hpos := List.length_pos_iff.mpr hword.1
  obtain ⟨m, hm⟩ : ∃ m, bytes.length = m + 1 := ⟨bytes.length - 1, by omega⟩
  have hsource : Terminated more (source.read 0 (m + 1)) := by rwa [← hm, hread]
  rcases decode_cases w source with ⟨n, -, hn, hunsigned, hsigned⟩ | ⟨hmore, -, -⟩
  · obtain rfl := terminated_read_unique hn hsource
    rw [← hm, hread] at hunsigned hsigned
    exact ⟨hunsigned, hsigned⟩
  · exact absurd ((terminated_read.mp hsource).2.symm.trans (hmore m (by omega)))
      Bool.false_ne_true

theorem limit_succ (hw : 8 ≤ w) : ∃ n, limit w = n + 1 ∧ 7 * n < w ∧ w ≤ 7 * (n + 1) :=
  ⟨(w + 6) / 7 - 1, by rw [limit]; omega, by omega, by omega⟩

theorem roundTrips_unsigned (hw : 8 ≤ w) :
    RoundTrips (limit w) (encodeUnsignedLEB128 (w := w)) (decodeUnsignedLEB128 w) := by
  obtain ⟨n, hn, -, hle⟩ := limit_succ hw
  have hspec : ∀ value : BitVec w, Terminated more (encodeUnsignedLEB128 value) ∧
      unsignedReading (encodeUnsignedLEB128 value) = value.toNat ∧
      (encodeUnsignedLEB128 value).length ≤ limit w := by
    intro value
    have hpow : 2 ^ w ≤ 128 ^ (n + 1) := by
      rw [(by rw [Nat.pow_mul] : 128 ^ (n + 1) = 2 ^ (7 * (n + 1)))]
      exact Nat.pow_le_pow_right (by decide) hle
    rw [hn]
    exact encodeUnsigned_spec hw n value (value.isLt.trans_le hpow)
  refine ⟨fun value source hread => ?_, fun value value' h => ?_, fun value => (hspec value).2.2⟩
  · obtain ⟨hword, hvalue, hlen⟩ := hspec value
    rw [(decode_of_terminated hword hlen hread).1, hvalue, BitVec.ofNat_toNat, BitVec.setWidth_eq]
  · exact (hspec value).1.eq_of_initial (hspec value').1 h

theorem roundTrips_signed (hw : 8 ≤ w) :
    RoundTrips (limit w) (encodeSignedLEB128 hw) (decodeSignedLEB128 w) := by
  obtain ⟨n, hn, -, hle⟩ := limit_succ hw
  have hspec : ∀ value : BitVec w, Terminated more (encodeSignedLEB128 hw value) ∧
      signedReading (encodeSignedLEB128 hw value) = value.toInt ∧
      (encodeSignedLEB128 hw value).length ≤ limit w := by
    intro value
    have hpow : (2 : Int) ^ (w - 1) ≤ 64 * 128 ^ n := by
      have hexp : (64 : Int) * 128 ^ n = 2 ^ (7 * n + 6) := by
        rw [pow_add, pow_mul, mul_comm]
        rfl
      rw [hexp]
      exact pow_le_pow_right₀ (by decide) (by omega)
    have hge := BitVec.le_toInt value
    have hlt := BitVec.toInt_lt (x := value)
    rw [hn]
    exact encodeSigned_spec hw n value (by omega)
  refine ⟨fun value source hread => ?_, fun value value' h => ?_, fun value => (hspec value).2.2⟩
  · obtain ⟨hword, hvalue, hlen⟩ := hspec value
    rw [(decode_of_terminated hword hlen hread).2, hvalue, BitVec.ofInt_toInt]
  · exact (hspec value).1.eq_of_initial (hspec value').1 h

/-! ## Bits that do not fit -/

/-- An error after at most one byte more than the type has room for, or the value that the
bytes stand for. -/
def Exact {α : Type} (bound : Nat) (value : α → Int) (reading : List Byte → Int)
    (source : Memory Byte) (decoded : Nat × Except String α) : Prop :=
  match decoded.2 with
  | .error _ => decoded.1 ≤ bound + 1
  | .ok v => value v = reading (source.read 0 decoded.1)

/-- Where the last admissible group ends the integer, its bits above the type are zero. -/
def UnsignedFits (w : Nat) (source : Memory Byte) : Prop :=
  Terminated more (source.read 0 (limit w)) →
    payload (source (limit w - 1)) < 2 ^ (w - 7 * (limit w - 1))

/-- Where the last admissible group ends the integer, its bits from the sign of the type on
are equal. -/
def SignedFits (w : Nat) (source : Memory Byte) : Prop :=
  Terminated more (source.read 0 (limit w)) →
    payload (source (limit w - 1)) < 2 ^ (w - 1 - 7 * (limit w - 1)) ∨
    128 - 2 ^ (w - 1 - 7 * (limit w - 1)) ≤ payload (source (limit w - 1))

theorem unsigned_range {n : Nat} (hn : 7 * n < w) :
    unsignedReading (source.read 0 (n + 1)) < 2 ^ w ↔ payload (source n) < 2 ^ (w - 7 * n) := by
  have hpow : 2 ^ w = 128 ^ n * 2 ^ (w - 7 * n) := by
    rw [(by rw [Nat.pow_mul] : 128 ^ n = 2 ^ (7 * n)), ← Nat.pow_add, Nat.add_sub_cancel' hn.le]
  have hlt : unsignedReading (source.read 0 n) < 128 ^ n := unsignedReading_read_lt n
  rw [unsignedReading_read_succ, hpow]
  constructor
  · intro h
    exact Nat.lt_of_mul_lt_mul_left (by omega : 128 ^ n * payload (source n) < _)
  · intro h
    have hmul := Nat.mul_le_mul_left (128 ^ n) (Nat.succ_le_of_lt h)
    rw [Nat.mul_succ] at hmul
    omega

def topGroup (byte : Byte) : Int := payload byte - if 64 ≤ payload byte then 128 else 0

theorem signed_range {n : Nat} (hn : 7 * n < w) :
    (-(2 ^ (w - 1)) ≤ signedReading (source.read 0 (n + 1)) ∧
      signedReading (source.read 0 (n + 1)) < 2 ^ (w - 1)) ↔
    (-(2 ^ (w - 1 - 7 * n)) ≤ topGroup (source n) ∧
      topGroup (source n) < 2 ^ (w - 1 - 7 * n)) := by
  obtain ⟨r, hr⟩ : ∃ r, r = unsignedReading (source.read 0 n) := ⟨_, rfl⟩
  have hread : signedReading (source.read 0 (n + 1)) = r + 128 ^ n * topGroup (source n) := by
    rw [signedReading_read_succ, unsignedReading_read_succ, ← hr, topGroup]
    split
    · push_cast
      ring
    · push_cast
      ring
  have hpow : (2 : Int) ^ (w - 1) = 128 ^ n * 2 ^ (w - 1 - 7 * n) := by
    rw [(by rw [pow_mul]; rfl : (128 : Int) ^ n = 2 ^ (7 * n)), ← pow_add,
      Nat.add_sub_cancel' (by omega)]
  have hlt : (r : Int) < 128 ^ n := by
    rw [hr]
    exact_mod_cast unsignedReading_read_lt n
  rw [hread, hpow]
  obtain ⟨b, hb⟩ : ∃ b : Int, b = 128 ^ n := ⟨_, rfl⟩
  obtain ⟨e, he⟩ : ∃ e : Int, e = 2 ^ (w - 1 - 7 * n) := ⟨_, rfl⟩
  obtain ⟨q, hq⟩ : ∃ q, q = topGroup (source n) := ⟨_, rfl⟩
  rw [← hb, ← he, ← hq]
  rw [← hb] at hlt
  -- the lower groups are worth less than one unit of the highest
  constructor
  · rintro ⟨hge, hle⟩
    constructor
    · by_contra hlow
      have hmul : b * q ≤ b * (-e - 1) := Int.mul_le_mul_of_nonneg_left (by omega) (by omega)
      rw [Int.mul_sub, Int.mul_neg, Int.mul_one] at hmul
      omega
    · by_contra hhigh
      have hmul : b * e ≤ b * q := Int.mul_le_mul_of_nonneg_left (by omega) (by omega)
      omega
  · rintro ⟨hge, hle⟩
    have hlow : b * -e ≤ b * q := Int.mul_le_mul_of_nonneg_left hge (by omega)
    have hhigh : b * q ≤ b * (e - 1) := Int.mul_le_mul_of_nonneg_left (by omega) (by omega)
    rw [Int.mul_neg] at hlow
    rw [Int.mul_sub, Int.mul_one] at hhigh
    omega

theorem exact_unsigned (hw : 8 ≤ w) (source : Memory Byte) :
    Exact (limit w) (fun v : BitVec w => (v.toNat : Int)) (fun bytes => unsignedReading bytes)
      source (decodeUnsignedLEB128 w source) ↔ UnsignedFits w source := by
  obtain ⟨top, htop, hlt, hle⟩ := limit_succ hw
  rw [UnsignedFits, htop, Nat.add_sub_cancel]
  rcases decode_cases w source with ⟨n, hn, hword, heq, -⟩ | ⟨hmore, heq, -⟩
  · have hnlt : 7 * n < w := by omega
    have hexact : Exact (top + 1) (fun v : BitVec w => (v.toNat : Int))
        (fun bytes => unsignedReading bytes) source (decodeUnsignedLEB128 w source) ↔
          payload (source n) < 2 ^ (w - 7 * n) := by
      rw [heq, ← unsigned_range hnlt]
      simp only [Exact, BitVec.toNat_ofNat, Nat.cast_inj]
      constructor
      · intro h
        rw [← h]
        exact Nat.mod_lt _ (Nat.two_pow_pos w)
      · exact Nat.mod_eq_of_lt
    rw [hexact]
    by_cases hend : n = top
    · subst hend
      exact ⟨fun h _ => h, fun h => h hword⟩
    · refine iff_of_true ?_ fun h => absurd (terminated_read_unique hword h) hend
      have hpow : 2 ^ 7 ≤ 2 ^ (w - 7 * n) := Nat.pow_le_pow_right (by decide) (by omega)
      exact (payload_lt (source n)).trans_le hpow
  · refine iff_of_true ?_ fun h => ?_
    · rw [heq, htop]
      exact Nat.le_refl _
    · exact absurd ((terminated_read.mp h).2.symm.trans (hmore top (by omega)))
        Bool.false_ne_true

theorem topGroup_range {byte : Byte} {e : Int} (he : 0 < e ∧ e ≤ 64) :
    (-e ≤ topGroup byte ∧ topGroup byte < e) ↔
      (payload byte : Int) < e ∨ 128 - e ≤ (payload byte : Int) := by
  have hlt := payload_lt byte
  rw [topGroup]
  split
  · omega
  · omega

theorem exact_signed (hw : 8 ≤ w) (source : Memory Byte) :
    Exact (limit w) (fun v : BitVec w => v.toInt) signedReading source
      (decodeSignedLEB128 w source) ↔ SignedFits w source := by
  obtain ⟨top, htop, hlt, hle⟩ := limit_succ hw
  rw [SignedFits, htop, Nat.add_sub_cancel]
  rcases decode_cases w source with ⟨n, hn, hword, -, heq⟩ | ⟨hmore, -, heq⟩
  · have hnlt : 7 * n < w := by omega
    have hexact : Exact (top + 1) (fun v : BitVec w => v.toInt) signedReading source
        (decodeSignedLEB128 w source) ↔
          (-(2 ^ (w - 1 - 7 * n)) ≤ topGroup (source n) ∧
            topGroup (source n) < 2 ^ (w - 1 - 7 * n)) := by
      rw [heq, ← signed_range hnlt]
      simp only [Exact]
      constructor
      · intro h
        rw [← h]
        exact ⟨BitVec.le_toInt _, BitVec.toInt_lt⟩
      · rintro ⟨hge, hlt⟩
        exact BitVec.toInt_ofInt_eq_self (by omega) hge hlt
    rw [hexact]
    by_cases hend : n = top
    · subst hend
      have hpow : 2 ^ (w - 1 - 7 * n) ≤ 2 ^ 6 := Nat.pow_le_pow_right (by decide) (by omega)
      have hpos := Nat.two_pow_pos (w - 1 - 7 * n)
      have hcast : (2 : Int) ^ (w - 1 - 7 * n) = ((2 ^ (w - 1 - 7 * n) : Nat) : Int) := by
        push_cast
        rfl
      rw [hcast, topGroup_range (by omega)]
      exact ⟨fun h _ => by omega, fun h => by have := h hword; omega⟩
    · refine iff_of_true ?_ fun h => absurd (terminated_read_unique hword h) hend
      have hpow : (2 : Int) ^ 7 ≤ 2 ^ (w - 1 - 7 * n) :=
        pow_le_pow_right₀ (by decide) (by omega)
      have hlt := payload_lt (source n)
      rw [topGroup]
      split
      · omega
      · omega
  · refine iff_of_true ?_ fun h => ?_
    · rw [heq, htop]
      exact Nat.le_refl _
    · exact absurd ((terminated_read.mp h).2.symm.trans (hmore top (by omega)))
        Bool.false_ne_true

/-- LEB128 integers round-trip, and what the decoders make of any bytes is exact unless
the last admissible group has bits that do not fit the type. -/
theorem leb128_exact {w : Nat} (hw : 8 ≤ w) :
    RoundTrips (limit w) (encodeUnsignedLEB128 (w := w)) (decodeUnsignedLEB128 w) ∧
    RoundTrips (limit w) (encodeSignedLEB128 hw) (decodeSignedLEB128 w) ∧
    ∀ source,
      (Exact (limit w) (fun v : BitVec w => (v.toNat : Int)) (fun bytes => unsignedReading bytes)
        source (decodeUnsignedLEB128 w source) ↔ UnsignedFits w source) ∧
      (Exact (limit w) (fun v : BitVec w => v.toInt) signedReading source
        (decodeSignedLEB128 w source) ↔ SignedFits w source) :=
  ⟨roundTrips_unsigned hw, roundTrips_signed hw,
    fun source => ⟨exact_unsigned hw source, exact_signed hw source⟩⟩

/-- Integers of one byte. -/
theorem leb128_exact_8 :
    RoundTrips (limit 8) (encodeUnsignedLEB128 (w := 8)) (decodeUnsignedLEB128 8) ∧
    RoundTrips (limit 8) (encodeSignedLEB128 (Nat.le_refl 8)) (decodeSignedLEB128 8) ∧
    ∀ source,
      (Exact (limit 8) (fun v : BitVec 8 => (v.toNat : Int)) (fun bytes => unsignedReading bytes)
        source (decodeUnsignedLEB128 8 source) ↔ UnsignedFits 8 source) ∧
      (Exact (limit 8) (fun v : BitVec 8 => v.toInt) signedReading source
        (decodeSignedLEB128 8 source) ↔ SignedFits 8 source) :=
  leb128_exact (Nat.le_refl 8)

/-- The bytes `80 7F` are read as 128, although their groups stand for 16256. -/
theorem leb128_drops_bits :
    ¬ ∀ source, Exact (limit 8) (fun v : BitVec 8 => (v.toNat : Int))
      (fun bytes => unsignedReading bytes) source (decodeUnsignedLEB128 8 source) := by
  intro h
  have hexact := h fun i => if i = 0 then 0x80 else 0x7F
  have hdecoded : decodeUnsignedLEB128 8 (fun i => if i = 0 then 0x80 else 0x7F) =
      (2, .ok 128) := by
    simp [decodeUnsignedLEB128, decodeGroups, Except.map]
  rw [hdecoded] at hexact
  have hvalue : ((128 : BitVec 8).toNat : Int) =
      unsignedReading (Memory.read (fun i => if i = 0 then 0x80 else 0x7F) 0 2) := hexact
  exact absurd hvalue (by decide)

end EncodingUtil

end MiniDuck
