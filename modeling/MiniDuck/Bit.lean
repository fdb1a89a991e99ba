import MiniDuck.ByteBits

/-!
# BIT values

A BIT is a list of bits in bytes, with padding bits in front that fill
the first byte, and a byte ahead of them that counts the padding. The
bits are `BitBuffer.bits`. A value is `Canonical` if its padding is
shorter than a byte and all ones; then its bits determine its bytes
(`canonical_injective`).

Every operation writes into a buffer that holds anything before. What it
writes is a change of the list of bits, and `finalize` repairs the
padding (`bits_finalize`).
-/

namespace MiniDuck

open ByteBits

/-- The bytes of a `bitstring_t`: the padding count, and the bytes behind it. -/
structure BitBuffer where
  padding : Nat
  bytes : List Byte
  deriving Repr, DecidableEq

inductive BitError
  | invalidCharacter (c : UInt8)
  | emptyString
  | differentSizes (operator : String)
  deriving Repr, DecidableEq

def BitError.message : BitError → String
  | .invalidCharacter c =>
      "Invalid character encountered in string -> bit conversion: '" ++
        (Char.ofNat c.toNat).toString ++ "'"
  | .emptyString => "Cannot cast empty string to BIT"
  | .differentSizes operator => "Cannot " ++ operator ++ " bit strings of different sizes"

def computePadding (len : Nat) : Nat := (8 - len % 8) % 8

/-- `Bit::ComputeBitstringLen`, with the byte for the padding. -/
def computeBitstringLen (len : Nat) : Nat :=
  let result := len / 8
  let result := if len % 8 ≠ 0 then result + 1 else result
  result + 1

namespace BitBuffer

variable (s : BitBuffer)

def size : Nat := s.bytes.length + 1

def getBitInternal (n : Nat) : Bool :=
  (s.bytes.getD (n / 8) 0 >>> (7 - n % 8)) &&& 1 = 1

def setBitInternal (n : Nat) (v : Bool) : BitBuffer := { s with bytes := setBit s.bytes n v }

def finalize : BitBuffer :=
  (List.range s.padding).foldl (fun s i => s.setBitInternal i true) s

def getBit (n : Nat) : Bool := s.getBitInternal (n + s.padding)

def setBit (n : Nat) (v : Bool) : BitBuffer := (s.setBitInternal (n + s.padding) v).finalize

def bitLength : Nat := (s.size - 1) * 8 - s.padding

def bitCount : Nat :=
  s.bytes.foldl (fun count b => (List.range 8).foldl
    (fun count i => if b &&& (1#8 <<< i) ≠ 0 then count + 1 else count) count) 0 - s.padding

def getFirstByte : Byte := s.bytes.headD 0 &&& ((1#8 <<< (8 - s.padding)) - 1)

def bitToBlob : List Byte := s.getFirstByte :: s.bytes.tail

def bitChar (b : Bool) : UInt8 := if b then 49 else 48

def toString : List UInt8 :=
  let bitAt (b : Byte) (i : Nat) := bitChar (b &&& (1#8 <<< (7 - i)) ≠ 0)
  (List.range' s.padding (8 - s.padding)).map (bitAt (s.bytes.headD 0)) ++
    s.bytes.tail.flatMap fun b => (List.range 8).map (bitAt b)

/-! ## The bits of a value -/

def bits : List Bool := (ByteBits.bits s.bytes).drop s.padding

/-- The padding fills less than a byte, and is all ones. -/
structure Canonical : Prop where
  padding_lt : s.padding < 8
  bytes_ne : s.bytes ≠ []
  padding_set : (ByteBits.bits s.bytes).take s.padding = List.replicate s.padding true

variable {s}

theorem length_bits : s.bits.length = s.bitLength := by
  rw [bits, List.length_drop, ByteBits.length_bits, bitLength, size, Nat.add_sub_cancel,
    Nat.mul_comm]

theorem canonical_injective {t : BitBuffer} (hs : s.Canonical) (ht : t.Canonical)
    (h : s.bits = t.bits) : s = t := by
  have hlength := congrArg List.length h
  rw [length_bits, length_bits, bitLength, bitLength, size, size] at hlength
  have hs' := hs.padding_lt
  have ht' := ht.padding_lt
  have hsne := List.length_pos_of_ne_nil hs.bytes_ne
  have htne := List.length_pos_of_ne_nil ht.bytes_ne
  have hpadding : s.padding = t.padding := by omega
  have hbytes : s.bytes = t.bytes := by
    refine ByteBits.bits_injective ?_
    rw [← List.take_append_drop s.padding (ByteBits.bits s.bytes), hs.padding_set]
    rw [← List.take_append_drop t.padding (ByteBits.bits t.bytes), ht.padding_set]
    exact congrArg₂ (· ++ ·) (by rw [hpadding]) h
  cases s
  cases t
  simp only [BitBuffer.mk.injEq]
  exact ⟨hpadding, hbytes⟩

/-! ## Reading and writing bits -/

theorem getMsbD_eq_ushiftRight (b : Byte) {j : Nat} (hj : j < 8) :
    decide ((b >>> (7 - j)) &&& 1 = 1) = b.getMsbD j := by
  have hbyte : ∀ (b : Byte) (j : Fin 8),
      decide ((b >>> (7 - j.val)) &&& 1 = 1) = b.getMsbD j.val := by
    decide +kernel
  exact hbyte b ⟨j, hj⟩

theorem getMsbD_eq_and (b : Byte) {j : Nat} (hj : j < 8) :
    decide (b &&& (1#8 <<< (7 - j)) ≠ 0) = b.getMsbD j := by
  have hbyte : ∀ (b : Byte) (j : Fin 8),
      decide (b &&& (1#8 <<< (7 - j.val)) ≠ 0) = b.getMsbD j.val := by
    decide +kernel
  exact hbyte b ⟨j, hj⟩

theorem getBitInternal_eq {n : Nat} (h : n < (ByteBits.bits s.bytes).length) :
    s.getBitInternal n = (ByteBits.bits s.bytes)[n] := by
  rw [getElem_bits, getBitInternal, getMsbD_eq_ushiftRight _ (Nat.mod_lt _ (by decide))]

theorem getBit_eq {n : Nat} (h : n < s.bits.length) : s.getBit n = s.bits[n] := by
  have hlength := h
  rw [bits, List.length_drop] at hlength
  rw [getBit, getBitInternal_eq (by omega)]
  simp only [bits, List.getElem_drop, Nat.add_comm]

@[simp] theorem setBitInternal_length (n : Nat) (v : Bool) :
    (s.setBitInternal n v).bytes.length = s.bytes.length := length_setBit _ _ _

theorem bits_setBitInternal (n : Nat) (v : Bool) :
    (s.setBitInternal (n + s.padding) v).bits = s.bits.set n v := by
  simp only [bits, setBitInternal, bits_setBit]
  rw [List.drop_set, if_neg (by omega), Nat.add_sub_cancel]

/-- Ones are written to the padding, and to nothing else. -/
theorem finalize_spec (s : BitBuffer) : s.finalize.padding = s.padding ∧
    s.finalize.bytes.length = s.bytes.length ∧ s.finalize.bits = s.bits ∧
    (s.padding ≤ 8 * s.bytes.length →
      (ByteBits.bits s.finalize.bytes).take s.padding = List.replicate s.padding true) := by
  have hfold : ∀ k, k ≤ s.padding →
      ((List.range k).foldl (fun s i => s.setBitInternal i true) s).padding = s.padding ∧
      ((List.range k).foldl (fun s i => s.setBitInternal i true) s).bytes.length =
        s.bytes.length ∧
      ((List.range k).foldl (fun s i => s.setBitInternal i true) s).bits = s.bits ∧
      (s.padding ≤ 8 * s.bytes.length →
        (ByteBits.bits ((List.range k).foldl
          (fun s i => s.setBitInternal i true) s).bytes).take k = List.replicate k true) := by
    intro k
    induction k with
    | zero => exact fun _ => ⟨rfl, rfl, rfl, fun _ => rfl⟩
    | succ k ih =>
        intro hk
        obtain ⟨hpadding, hlength, hbits, htake⟩ := ih (by omega)
        rw [List.range_succ, List.foldl_append, List.foldl_cons, List.foldl_nil]
        generalize (List.range k).foldl (fun s i => s.setBitInternal i true) s = t at *
        refine ⟨hpadding, by rw [setBitInternal_length, hlength], ?_, fun hle => ?_⟩
        · rw [← hbits]
          show (ByteBits.bits (ByteBits.setBit t.bytes k true)).drop t.padding = _
          rw [bits_setBit, List.drop_set_of_lt (by omega)]
          rfl
        · have hlt : k < (ByteBits.bits t.bytes).length := by
            rw [ByteBits.length_bits, hlength]
            omega
          show (ByteBits.bits (ByteBits.setBit t.bytes k true)).take (k + 1) = _
          rw [bits_setBit, List.take_succ_eq_append_getElem (by simpa using hlt),
            List.take_set_of_le (le_refl k), htake hle, List.getElem_set_self,
            List.replicate_succ']
  exact hfold s.padding le_rfl

theorem finalize_canonical (s : BitBuffer) (hpadding : s.padding < 8) (hne : s.bytes ≠ []) :
    s.finalize.Canonical ∧ s.finalize.bits = s.bits := by
  obtain ⟨hp, hlength, hbits, htake⟩ := s.finalize_spec
  have hpos := List.length_pos_of_ne_nil hne
  refine ⟨⟨by rwa [hp], ?_, ?_⟩, hbits⟩
  · exact List.ne_nil_of_length_pos (by rwa [hlength])
  · rw [hp]
    exact htake (by omega)

theorem setBit_spec (s : BitBuffer) (n : Nat) (v : Bool) : (s.setBit n v).padding = s.padding ∧
    (s.setBit n v).bytes.length = s.bytes.length ∧ (s.setBit n v).bits = s.bits.set n v := by
  obtain ⟨hp, hlength, hbits, -⟩ := (s.setBitInternal (n + s.padding) v).finalize_spec
  exact ⟨hp, hlength.trans (setBitInternal_length _ _),
    hbits.trans (bits_setBitInternal n v)⟩

/-! ## Results -/

theorem foldl_set (f : Nat → Bool) (l : List Bool) : ∀ n, n ≤ l.length →
    (List.range n).foldl (fun l i => l.set i (f i)) l = (List.range n).map f ++ l.drop n
  | 0, _ => rfl
  | n + 1, h => by
      have hdrop : l.drop n = l[n] :: l.drop (n + 1) := List.drop_eq_getElem_cons h
      rw [List.range_succ, List.foldl_append, foldl_set f l n (by omega), List.foldl_cons,
        List.foldl_nil, List.set_append_right _ _ (by simp), List.length_map, List.length_range,
        Nat.sub_self, hdrop, List.set_cons_zero, List.map_append, List.append_assoc]
      rfl

/-- A loop that writes all bits of a buffer, whatever it held before. -/
theorem foldl_write {write : BitBuffer → Nat → Bool → BitBuffer}
    (hwrite : ∀ s n v, (write s n v).padding = s.padding ∧
      (write s n v).bytes.length = s.bytes.length ∧ (write s n v).bits = s.bits.set n v)
    (f : Nat → Bool) (s : BitBuffer) {n : Nat} (hn : s.bits.length = n) :
    let t := (List.range n).foldl (fun s i => write s i (f i)) s
    t.padding = s.padding ∧ t.bytes.length = s.bytes.length ∧ t.bits = (List.range n).map f := by
  have hfold : ∀ k, (let t := (List.range k).foldl (fun s i => write s i (f i)) s
      t.padding = s.padding ∧ t.bytes.length = s.bytes.length ∧
        t.bits = (List.range k).foldl (fun l i => l.set i (f i)) s.bits) := by
    intro k
    induction k with
    | zero => exact ⟨rfl, rfl, rfl⟩
    | succ k ih =>
        obtain ⟨hp, hlength, hbits⟩ := ih
        simp only [List.range_succ, List.foldl_append, List.foldl_cons, List.foldl_nil]
        obtain ⟨hp', hlength', hbits'⟩ :=
          hwrite ((List.range k).foldl (fun s i => write s i (f i)) s) k (f k)
        exact ⟨hp'.trans hp, hlength'.trans hlength, by rw [hbits', hbits]⟩
  obtain ⟨hp, hlength, hbits⟩ := hfold n
  refine ⟨hp, hlength, ?_⟩
  rw [hbits, foldl_set f s.bits n hn.ge, List.drop_eq_nil_of_le hn.le, List.append_nil]

/-- A buffer that `ComputeBitstringLen` has been asked for. -/
theorem length_bits_result {len : Nat} {s : BitBuffer} (hsize : s.size = computeBitstringLen len)
    (hp : s.padding = computePadding len) : s.bits.length = len := by
  rw [length_bits, bitLength, hsize, hp, computeBitstringLen, computePadding]
  split_ifs <;> omega

theorem computePadding_lt (len : Nat) : computePadding len < 8 := Nat.mod_lt _ (by decide)

theorem bytes_ne_of_size {len : Nat} {s : BitBuffer} (hsize : s.size = computeBitstringLen len)
    (hlen : 0 < len) : s.bytes ≠ [] := by
  refine List.ne_nil_of_length_pos ?_
  rw [size, computeBitstringLen] at hsize
  split_ifs at hsize <;> omega

end BitBuffer

end MiniDuck
