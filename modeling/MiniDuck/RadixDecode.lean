import MiniDuck.SortKey

/-!
# Reading radix-encoded integers back

`decodeInteger` inverts `encodeInteger` on the values of each type
(`decodeInteger_encode`). It reads as many bytes as the type has and does not
look at what follows them.
-/

namespace MiniDuck

/-- The number that a word of `n` bytes stands for in two's complement. -/
def toSigned (n w : Nat) : Int := if w < 2 ^ (8 * n - 1) then w else (w : Int) - 2 ^ (8 * n)

def decodeSigned (n : Nat) (input : List UInt8) : Int :=
  toSigned n (loadWord (flipSign (input.take n)).reverse)

/-- `Load` and byte swap. -/
def decodeUnsigned (n : Nat) (input : List UInt8) : Nat :=
  loadWord (input.take n).reverse

/-- `Radix::DecodeData` for the integer types. -/
def decodeInteger (signed : Bool) (width : IntWidth) (input : List UInt8) : Int :=
  match width with
  | .w128 =>
      (if signed then decodeSigned 8 input else decodeUnsigned 8 input) * 2 ^ 64 +
        decodeUnsigned 8 (input.drop 8)
  | _ => if signed then decodeSigned width.bytes input else decodeUnsigned width.bytes input

theorem flipSign_flipSign (bytes : List UInt8) : flipSign (flipSign bytes) = bytes := by
  cases bytes with
  | nil => rfl
  | cons b bytes =>
      have hflip : ∀ b : BitVec 8, b ^^^ 128#8 ^^^ 128#8 = b := by decide
      have : b ^^^ 128 ^^^ 128 = b := UInt8.toBitVec_inj.mp (hflip _)
      simp [flipSign, this]

theorem length_flipSign (bytes : List UInt8) : (flipSign bytes).length = bytes.length := by
  cases bytes <;> rfl

theorem length_encodeSigned (n : Nat) (v : Int) : (encodeSigned n v).length = n := by
  rw [encodeSigned, length_flipSign, length_storeSwapped]

theorem loadWord_reverse_storeSwapped {n v : Nat} (hv : v < 256 ^ n) :
    loadWord (storeSwapped n v).reverse = v := by
  rw [storeSwapped, List.reverse_reverse, loadWord_storeBytes, Nat.mod_eq_of_lt hv]

theorem toSigned_emod {n : Nat} (hn : 0 < n) {v : Int} (hlo : -(2 ^ (8 * n - 1)) ≤ v)
    (hhi : v < 2 ^ (8 * n - 1)) : toSigned n (v % 2 ^ (8 * n)).toNat = v := by
  obtain ⟨half, hhalf⟩ : ∃ half : Nat, (2 : Int) ^ (8 * n - 1) = half := ⟨2 ^ (8 * n - 1), by simp⟩
  have hhalf' : 2 ^ (8 * n - 1) = half := by exact_mod_cast hhalf
  have hfull : (2 : Int) ^ (8 * n) = 2 * half := by
    rw [← hhalf, ← pow_succ']
    congr 1
    omega
  rw [hhalf] at hlo hhi
  rw [toSigned, hfull, hhalf']
  rcases lt_or_ge v 0 with hneg | hpos
  · have hmod : v % (2 * half) = v + 2 * half := by
      rw [← Int.add_emod_right]
      exact Int.emod_eq_of_lt (by omega) (by omega)
    rw [hmod, if_neg (by omega)]
    omega
  · rw [Int.emod_eq_of_lt hpos (by omega), if_pos (by omega)]
    omega

theorem decodeSigned_encode {n : Nat} (hn : 0 < n) {v : Int} (hlo : -(2 ^ (8 * n - 1)) ≤ v)
    (hhi : v < 2 ^ (8 * n - 1)) (rest : List UInt8) :
    decodeSigned n (encodeSigned n v ++ rest) = v := by
  have hlt : (v % 2 ^ (8 * n)).toNat < 256 ^ n := by
    have hpos : (0 : Int) < 2 ^ (8 * n) := pow_pos (by decide) _
    have := Int.emod_lt_of_pos v hpos
    have h256 : ((256 ^ n : Nat) : Int) = 2 ^ (8 * n) := by
      rw [pow_mul]
      push_cast
      rfl
    have := Int.emod_nonneg v hpos.ne'
    omega
  rw [decodeSigned, List.take_left' (length_encodeSigned n v), encodeSigned, flipSign_flipSign,
    loadWord_reverse_storeSwapped hlt, toSigned_emod hn hlo hhi]

theorem decodeUnsigned_encode {n v : Nat} (hv : v < 256 ^ n) (rest : List UInt8) :
    decodeUnsigned n (storeSwapped n v ++ rest) = v := by
  rw [decodeUnsigned, List.take_left' (length_storeSwapped n v),
    loadWord_reverse_storeSwapped hv]

theorem decodeNumber_encode {signed : Bool} {n : Nat} (hn : 0 < n) {v : Int}
    (hv : IntBounds signed n v) (rest : List UInt8) :
    (if signed then decodeSigned n ((if signed then encodeSigned n v
        else storeSwapped n v.toNat) ++ rest)
      else (decodeUnsigned n ((if signed then encodeSigned n v
        else storeSwapped n v.toNat) ++ rest) : Int)) = v := by
  cases signed with
  | true => exact decodeSigned_encode hn hv.1 hv.2 rest
  | false =>
      obtain ⟨hlo, hhi⟩ : 0 ≤ v ∧ v < 2 ^ (8 * n) := hv
      have h256 : (2 : Int) ^ (8 * n) = ((256 ^ n : Nat) : Int) := by
        rw [pow_mul]
        push_cast
        rfl
      have hlt : v.toNat < 256 ^ n := by omega
      show (decodeUnsigned n (storeSwapped n v.toNat ++ rest) : Int) = v
      rw [decodeUnsigned_encode hlt]
      omega

theorem decodeInteger_encode {signed : Bool} {width : IntWidth} (v : IntValue signed width)
    (rest : List UInt8) :
    decodeInteger signed width (encodeInteger signed width v.1 ++ rest) = v.1 := by
  obtain ⟨v, hv⟩ := v
  cases width with
  | w128 =>
      have hupper := decodeNumber_encode (n := 8) (by decide) (intBounds_upper hv)
        (storeSwapped 8 (v % 2 ^ 64).toNat ++ rest)
      have hlen : ((if signed then encodeSigned 8 (v / 2 ^ 64)
          else storeSwapped 8 (v / 2 ^ 64).toNat) : List UInt8).length = 8 := by
        cases signed
        · exact length_storeSwapped 8 _
        · exact length_encodeSigned 8 _
      have hlower : (v % 2 ^ 64).toNat < 256 ^ 8 := by omega
      simp only [decodeInteger, encodeInteger, List.append_assoc]
      rw [hupper, List.drop_left' hlen, decodeUnsigned_encode hlower]
      omega
  | w8 => exact decodeNumber_encode (by decide) hv rest
  | w16 => exact decodeNumber_encode (by decide) hv rest
  | w32 => exact decodeNumber_encode (by decide) hv rest
  | w64 => exact decodeNumber_encode (by decide) hv rest

end MiniDuck
