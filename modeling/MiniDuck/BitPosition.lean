import MiniDuck.BitOperations
import MiniDuck.RestartSearch

/-!
# The position of bits in a BIT value

The two loops of the search are one scan of the bits (`scan_eq`), which
restarts behind a bit that does not match. The position is right if a
comparison begins at the leftmost occurrence; for all texts, if all bits
of the substring are equal (`bit_position`).
-/

namespace MiniDuck

namespace BitBuffer

open ByteBits RestartSearch

/-- A bit of the text, `bitIdx` bits behind its padding, after `substrIdx` bits of the substring
have matched. The unsigned difference may wrap before 2 is added. -/
def compareBit (substring : BitBuffer) (bit : Bool) (bitIdx substrIdx : Nat) : Except Nat Nat :=
  if bit = substring.getBit substrIdx then
    if substrIdx + 1 = substring.bitLength then .error (bitIdx + 2 - substring.bitLength)
    else .ok (substrIdx + 1)
  else .ok 0

/-- `Bit::BitPosition`; a position leaves the loops as an error. -/
def bitPosition (substring bits : BitBuffer) : Nat :=
  let bitAt (b : Byte) (i : Nat) : Bool := b &&& (1#8 <<< (7 - i)) ≠ 0
  let firstByte := (List.range' bits.padding (8 - bits.padding)).foldlM (fun substrIdx bitIdx =>
    compareBit substring (bitAt (bits.bytes.headD 0) bitIdx) (bitIdx - bits.padding) substrIdx)
  let remainingBytes := (List.range' 2 (bits.size - 2)).foldlM (fun substrIdx byteIdx =>
    (List.range 8).foldlM (fun substrIdx bitIdx =>
      compareBit substring (bitAt (bits.bytes.getD (byteIdx - 1) 0) bitIdx)
        ((byteIdx - 1) * 8 + bitIdx - bits.padding) substrIdx) substrIdx)
  match firstByte 0 >>= remainingBytes with
  | .error position => position
  | .ok _ => 0

variable {s t : BitBuffer}

/-! ## One scan -/

theorem compareBit_eq {b : Bool} {i k : Nat} (hk : k < s.bits.length) :
    compareBit s b i k = step s.bits b i k := by
  simp only [compareBit, step, getBit_eq hk, List.getElem?_eq_getElem hk, Option.some.injEq,
    length_bits, eq_comm]

theorem compareBit_lt {b : Bool} {i k k' : Nat} (hk : k < s.bits.length)
    (h : compareBit s b i k = .ok k') : k' < s.bits.length := by
  rw [compareBit, ← length_bits] at h
  split_ifs at h with hb hfull
  · have hk' : k + 1 = k' := Except.ok.inj h
    omega
  · have hk' : 0 = k' := Except.ok.inj h
    omega

theorem foldlM_compareBit : ∀ (elements : List (Bool × Nat)) {k : Nat}, k < s.bits.length →
    elements.foldlM (fun k element => compareBit s element.1 element.2 k) k =
      scan s.bits elements k
  | [], _, _ => rfl
  | element :: elements, k, hk => by
      rw [List.foldlM_cons, scan, List.foldlM_cons, ← compareBit_eq hk]
      cases hstep : compareBit s element.1 element.2 k with
      | error position => rfl
      | ok k' => exact foldlM_compareBit elements (compareBit_lt hk hstep)

/-- The bits of a byte from bit `p` on, with their positions. -/
theorem zipIdx_byteBits (b : Byte) {p : Nat} (hp : p ≤ 8) (n : Nat) :
    ((byteBits b).drop p).zipIdx n =
      (List.range' p (8 - p)).map fun i => (decide (b &&& (1#8 <<< (7 - i)) ≠ 0), n + i - p) := by
  refine List.ext_getElem (by simp) fun i hi _ => ?_
  have hlt : p + i < 8 := by
    simp only [List.length_zipIdx, List.length_drop, length_byteBits] at hi
    omega
  simp only [List.getElem_zipIdx, List.getElem_drop, List.getElem_map, List.getElem_range']
  rw [getElem_byteBits, Nat.one_mul, getMsbD_eq_and b hlt, Nat.add_left_comm,
    Nat.add_sub_cancel_left]

theorem zipIdx_bits (bytes : List Byte) (padding : Nat) : ∀ (rest : List Byte) (k : Nat),
    0 < k → padding ≤ 8 * k → bytes.drop k = rest →
    (ByteBits.bits rest).zipIdx (k * 8 - padding) =
      (List.range' (k + 1) rest.length).flatMap fun byteIdx => (List.range 8).map fun i =>
        (decide (bytes.getD (byteIdx - 1) 0 &&& (1#8 <<< (7 - i)) ≠ 0),
          (byteIdx - 1) * 8 + i - padding)
  | [], _, _, _, _ => rfl
  | b :: rest, k, hk, hpadding, hdrop => by
      have hb : bytes.getD k 0 = b := by
        rw [List.getD_eq_getElem?_getD, ← Nat.add_zero k, ← List.getElem?_drop, hdrop]
        rfl
      have hrest : bytes.drop (k + 1) = rest := by
        rw [← List.drop_drop, hdrop]
        rfl
      have ih := zipIdx_bits bytes padding rest (k + 1) (Nat.succ_pos k) (by omega) hrest
      have hbyte := zipIdx_byteBits b (Nat.zero_le 8) (k * 8 - padding)
      rw [List.drop_zero] at hbyte
      rw [bits_cons, List.zipIdx_append, hbyte, length_byteBits, List.length_cons,
        List.range'_succ (s := k + 1), List.flatMap_cons, Nat.add_sub_cancel, hb,
        show k * 8 - padding + 8 = (k + 1) * 8 - padding by omega, ih, List.range_eq_range']
      refine congrArg (· ++ _) (List.map_congr_left fun i _ => ?_)
      rw [show k * 8 - padding + i - 0 = k * 8 + i - padding by omega]

theorem foldlM_flatMap {α β : Type} {f : Nat → β → Except Nat Nat} {g : α → List β} :
    ∀ (l : List α) (k : Nat),
      (l.flatMap g).foldlM f k = l.foldlM (fun k a => (g a).foldlM f k) k
  | [], _ => rfl
  | a :: l, k => by
      rw [List.flatMap_cons, List.foldlM_append, List.foldlM_cons]
      exact congrArg ((g a).foldlM f k >>= ·) (funext fun k' => foldlM_flatMap l k')

theorem bitPosition_eq (hs : s.bits ≠ []) (ht : t.Canonical) : bitPosition s t =
    match scan s.bits t.bits.zipIdx 0 with
    | .error position => position
    | .ok _ => 0 := by
  have hpos := List.length_pos_of_ne_nil hs
  cases hbytes : t.bytes with
  | nil => exact absurd hbytes ht.bytes_ne
  | cons b rest =>
      have hbits : t.bits.zipIdx = ((byteBits b).drop t.padding).zipIdx ++
          (ByteBits.bits rest).zipIdx (1 * 8 - t.padding) := by
        rw [bits, hbytes, bits_cons,
          List.drop_append_of_le_length (by simpa using ht.padding_lt.le), List.zipIdx_append,
          List.length_drop, length_byteBits, Nat.zero_add, Nat.one_mul]
      have hrest := zipIdx_bits t.bytes t.padding rest 1 (by decide)
        ht.padding_lt.le (by rw [hbytes]; rfl)
      have hsize : t.size - 2 = rest.length := by
        rw [size, hbytes, List.length_cons]
        omega
      rw [hbits, zipIdx_byteBits b ht.padding_lt.le, hrest, ← foldlM_compareBit _ hpos,
        List.foldlM_append, List.foldlM_map]
      simp only [foldlM_flatMap, List.foldlM_map, Nat.zero_add]
      rw [bitPosition, hsize, hbytes]
      rfl

theorem Canonical.bits_ne (hs : s.Canonical) : s.bits ≠ [] := by
  have hpadding := hs.padding_lt
  have hpos := List.length_pos_of_ne_nil hs.bytes_ne
  refine List.ne_nil_of_length_pos ?_
  rw [bits, List.length_drop, ByteBits.length_bits]
  omega

theorem bitPosition_iff (hs : s.Canonical) (ht : t.Canonical) :
    IsPosition s.bits t.bits (bitPosition s t) ↔ Reached s.bits t.bits := by
  have hscan := scan_spec t.bits hs.bits_ne
  rw [bitPosition_eq hs.bits_ne ht]
  cases hresult : scan s.bits t.bits.zipIdx 0 with
  | error position =>
      rw [hresult] at hscan
      exact isPosition_of_finds hscan
  | ok k =>
      rw [hresult] at hscan
      exact isPosition_zero hscan

end BitBuffer

open BitBuffer RestartSearch

/-- The leftmost occurrence is found if and only if a comparison begins there, and found in every
text if and only if the bits of the substring are all equal. -/
theorem bit_position {s : BitBuffer} (hs : s.Canonical) :
    (∀ t : BitBuffer, t.Canonical →
      (IsPosition s.bits t.bits (bitPosition s t) ↔ Reached s.bits t.bits)) ∧
    ((∀ t : BitBuffer, t.Canonical → IsPosition s.bits t.bits (bitPosition s t)) ↔
      ∃ m b, s.bits = List.replicate m b) := by
  refine ⟨fun t => bitPosition_iff hs, ?_⟩
  rw [← reached_all_iff hs.bits_ne]
  constructor
  · intro hposition text hne
    obtain ⟨t, -, ht, hbits, -⟩ := toBit_map hne
    rw [← hbits]
    exact (bitPosition_iff hs ht).mp (hposition t ht)
  · intro hreached t ht
    exact (bitPosition_iff hs ht).mpr (hreached t.bits ht.bits_ne)

theorem bit_position_ones : bitPosition ⟨6, [255]⟩ ⟨3, [237]⟩ = 2 ∧
    IsPosition (bits ⟨6, [255]⟩) (bits ⟨3, [237]⟩) (bitPosition ⟨6, [255]⟩ ⟨3, [237]⟩) := by
  have hs : Canonical ⟨6, [255]⟩ := ⟨by decide, by decide, by decide⟩
  have ht : Canonical ⟨3, [237]⟩ := ⟨by decide, by decide, by decide⟩
  exact ⟨by decide, (bit_position hs).2.mpr ⟨2, true, by decide⟩ ⟨3, [237]⟩ ht⟩

/-- The substring 01 is not found in 001. -/
theorem bit_position_missed :
    Canonical ⟨6, [253]⟩ ∧ bits ⟨6, [253]⟩ = [false, true] ∧
    Canonical ⟨5, [249]⟩ ∧ bits ⟨5, [249]⟩ = [false, false, true] ∧
    bitPosition ⟨6, [253]⟩ ⟨5, [249]⟩ = 0 ∧ Leftmost (bits ⟨6, [253]⟩) (bits ⟨5, [249]⟩) 1 ∧
    ¬ IsPosition (bits ⟨6, [253]⟩) (bits ⟨5, [249]⟩) (bitPosition ⟨6, [253]⟩ ⟨5, [249]⟩) := by
  have hs : Canonical ⟨6, [253]⟩ := ⟨by decide, by decide, by decide⟩
  have ht : Canonical ⟨5, [249]⟩ := ⟨by decide, by decide, by decide⟩
  have hzero : bitPosition ⟨6, [253]⟩ ⟨5, [249]⟩ = 0 := by decide
  have hs' : bits ⟨6, [253]⟩ = [false, true] := by decide
  have ht' : bits ⟨5, [249]⟩ = [false, false, true] := by decide
  have hone : Occurs [false, true] [false, false, true] 1 := List.prefix_refl _
  have hfront : ¬ Occurs [false, true] [false, false, true] 0 := by
    rintro ⟨suffix, hsuffix⟩
    exact absurd hsuffix (by simp)
  have hleftmost : Leftmost [false, true] [false, false, true] 1 :=
    ⟨hone, fun q hq => Nat.one_le_iff_ne_zero.mpr fun h => hfront (h ▸ hq)⟩
  refine ⟨hs, hs', ht, ht', hzero, by rwa [hs', ht'], ?_⟩
  rw [hzero, hs', ht']
  rintro (⟨p, -, hp⟩ | ⟨-, hnone⟩)
  · omega
  · exact hnone 1 hone

end MiniDuck
