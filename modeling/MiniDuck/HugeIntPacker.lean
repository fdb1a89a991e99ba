import MiniDuck.Bitpacking
import MiniDuck.ByteMemory
import MiniDuck.SwarWord

/-!
# Packing of 128-bit values

`HugeIntPacker` packs 32 values of a width into as many 32-bit words as
the width has bits. Widths that are a multiple of 32 store whole words;
for all others a value starts in the middle of a word, fills up to four
more and leaves the last of them for its successor.

Both directions are described by the bits of the words in order
(`bitAt`). `packSingle_bits` and `unpackSingle_bits` say which of them
belong to one value, so that `pack_bits` and `unpack_bits` meet, and the
packer is a kernel like those of the other widths (`hugeIntPacker`).
-/

namespace MiniDuck

namespace HugeIntPacker

abbrev Words : Type := Memory (BitVec 32)

/-! ## Packing -/

/-- `PackSingle`, with the words and the place of `out` in them. -/
def packSingle (value : BitVec 128) (words : Words) (out delta shl : Nat) (mask : BitVec 128) :
    Words × Nat :=
  let masked := value &&& mask
  if delta + shl < 32 then
    let first := if shl = 0 then masked.setWidth 32
      else words out ||| (masked <<< shl).setWidth 32
    (Function.update words out first, out)
  else if delta + shl < 64 then
    let first := if shl = 0 then masked.setWidth 32
      else words out ||| (masked <<< shl).setWidth 32
    let words := Function.update words out first
    let out := out + 1
    if delta + shl > 32 then
      (Function.update words out ((masked >>> (32 - shl)).setWidth 32), out)
    else (words, out)
  else if delta + shl < 96 then
    let first := if shl = 0 then masked.setWidth 32
      else words out ||| (value <<< shl).setWidth 32
    let words := Function.update words out first
    let words := Function.update words (out + 1) ((masked >>> (32 - shl)).setWidth 32)
    let out := out + 2
    if delta + shl > 64 then
      (Function.update words out ((masked >>> (64 - shl)).setWidth 32), out)
    else (words, out)
  else if delta + shl < 128 then
    let first := if shl = 0 then masked.setWidth 32
      else words out ||| (value <<< shl).setWidth 32
    let words := Function.update words out first
    let words := Function.update words (out + 1) ((masked >>> (32 - shl)).setWidth 32)
    let words := Function.update words (out + 2) ((masked >>> (64 - shl)).setWidth 32)
    let out := out + 3
    if delta + shl > 96 then
      (Function.update words out ((masked >>> (96 - shl)).setWidth 32), out)
    else (words, out)
  else
    let words := Function.update words out (words out ||| (value <<< shl).setWidth 32)
    let words := Function.update words (out + 1) ((masked >>> (32 - shl)).setWidth 32)
    let words := Function.update words (out + 2) ((masked >>> (64 - shl)).setWidth 32)
    let words := Function.update words (out + 3) ((masked >>> (96 - shl)).setWidth 32)
    let out := out + 4
    if delta + shl > 128 then
      (Function.update words out ((masked >>> (128 - shl)).setWidth 32), out)
    else (words, out)

/-- `PackLast`, of the value `in[31]`. -/
def packLast (value : BitVec 128) (words : Words) (out delta : Nat) : Words :=
  let shift := (delta * 31) % 32
  let words := Function.update words out (words out ||| (value <<< shift).setWidth 32)
  let words := if delta > 32 then
    Function.update words (out + 1) ((value >>> (32 - shift)).setWidth 32) else words
  let words := if delta > 64 then
    Function.update words (out + 2) ((value >>> (64 - shift)).setWidth 32) else words
  if delta > 96 then
    Function.update words (out + 3) ((value >>> (96 - shift)).setWidth 32) else words

/-- The words of values that fill `n` words each. -/
def packDelta (n : Nat) (values : Nat → BitVec 128) (words : Words) : Words :=
  (List.range 32).foldl (fun words i => words.write (n * i)
    ((List.range n).map fun k => (values i >>> (32 * k)).setWidth 32)) words

def packDelta32 : (Nat → BitVec 128) → Words → Words := packDelta 1

def packDelta64 : (Nat → BitVec 128) → Words → Words := packDelta 2

def packDelta96 : (Nat → BitVec 128) → Words → Words := packDelta 3

def packDelta128 : (Nat → BitVec 128) → Words → Words := packDelta 4

/-- The loop of `Pack` for the first `n` values. -/
def packLoop (values : Nat → BitVec 128) (words : Words) (width : Nat) : Nat → Words × Nat
  | 0 => (words, 0)
  | n + 1 =>
      let packed := packLoop values words width n
      packSingle (values n) packed.1 packed.2 width (width * n % 32)
        (((1 : BitVec 128) <<< width) - 1)

def pack (values : Nat → BitVec 128) (words : Words) (width : Nat) : Words :=
  match width with
  | 0 => words
  | 32 => packDelta32 values words
  | 64 => packDelta64 values words
  | 96 => packDelta96 values words
  | 128 => packDelta128 values words
  | width =>
      let packed := packLoop values words width 31
      packLast (values 31) packed.1 packed.2 width

/-! ## Unpacking -/

/-- `UnpackSingle`, with the place of `in` in the words. -/
def unpackSingle (words : Words) (pos delta shr : Nat) : BitVec 128 × Nat :=
  if delta + shr < 32 then
    (((words pos).setWidth 128 >>> shr) &&& (((1 : BitVec 128) <<< delta) - 1), pos)
  else if delta + shr < 64 then
    let out := (words pos).setWidth 128 >>> shr
    let pos := pos + 1
    if delta + shr > 32 then
      let nextShr := shr + delta - 32
      (out ||| (words pos % ((1 : BitVec 32) <<< nextShr)).setWidth 128 <<< (32 - shr), pos)
    else (out, pos)
  else if delta + shr < 96 then
    let out := (words pos).setWidth 128 >>> shr
    let out := out ||| (words (pos + 1)).setWidth 128 <<< (32 - shr)
    let pos := pos + 2
    if delta + shr > 64 then
      let nextShr := delta + shr - 64
      (out ||| (words pos % ((1 : BitVec 32) <<< nextShr)).setWidth 128 <<< (64 - shr), pos)
    else (out, pos)
  else if delta + shr < 128 then
    let out := (words pos).setWidth 128 >>> shr
    let out := out ||| (words (pos + 1)).setWidth 128 <<< (32 - shr)
    let out := out ||| (words (pos + 2)).setWidth 128 <<< (64 - shr)
    let pos := pos + 3
    if delta + shr > 96 then
      let nextShr := delta + shr - 96
      (out ||| (words pos % ((1 : BitVec 32) <<< nextShr)).setWidth 128 <<< (96 - shr), pos)
    else (out, pos)
  else
    let out := (words pos).setWidth 128 >>> shr
    let out := out ||| (words (pos + 1)).setWidth 128 <<< (32 - shr)
    let out := out ||| (words (pos + 2)).setWidth 128 <<< (64 - shr)
    let out := out ||| (words (pos + 3)).setWidth 128 <<< (96 - shr)
    let pos := pos + 4
    if delta + shr > 128 then
      let nextShr := delta + shr - 128
      (out ||| (words pos % ((1 : BitVec 32) <<< nextShr)).setWidth 128 <<< (128 - shr), pos)
    else (out, pos)

/-- `UnpackLast`, with the value of `out[31]`. -/
def unpackLast (words : Words) (pos delta : Nat) : BitVec 128 :=
  let shift := (delta * 31) % 32
  let out := (words pos >>> shift).setWidth 128
  let out := if delta > 32 then out ||| (words (pos + 1)).setWidth 128 <<< (32 - shift) else out
  let out := if delta > 64 then out ||| (words (pos + 2)).setWidth 128 <<< (64 - shift) else out
  if delta > 96 then out ||| (words (pos + 3)).setWidth 128 <<< (96 - shift) else out

def unpackDelta0 : List (BitVec 128) := List.replicate 32 0

/-- Values that fill `n` words each. -/
def unpackDelta (n : Nat) (words : Words) : List (BitVec 128) :=
  (List.range 32).map fun i =>
    (List.range n).foldl (fun out k => out ||| (words (n * i + k)).setWidth 128 <<< (32 * k)) 0

def unpackDelta32 : Words → List (BitVec 128) := unpackDelta 1

def unpackDelta64 : Words → List (BitVec 128) := unpackDelta 2

def unpackDelta96 : Words → List (BitVec 128) := unpackDelta 3

def unpackDelta128 : Words → List (BitVec 128) := unpackDelta 4

/-- The loop of `Unpack`, with the place of the value at hand and how many are left. -/
def unpackLoop (words : Words) (width : Nat) : Nat → Nat → Nat → List (BitVec 128) × Nat
  | 0, _, pos => ([], pos)
  | n + 1, i, pos =>
      let single := unpackSingle words pos width (width * i % 32)
      let rest := unpackLoop words width n (i + 1) single.2
      (single.1 :: rest.1, rest.2)

def unpack (words : Words) (width : Nat) : List (BitVec 128) :=
  match width with
  | 0 => unpackDelta0
  | 32 => unpackDelta32 words
  | 64 => unpackDelta64 words
  | 96 => unpackDelta96 words
  | 128 => unpackDelta128 words
  | width =>
      let unpacked := unpackLoop words width 31 0 0
      unpacked.1 ++ [unpackLast words unpacked.2 width]

/-! ## Bits of the words -/

def bitAt (words : Words) (b : Nat) : Bool := (words (b / 32)).getLsbD (b % 32)

theorem bitAt_word (words : Words) {q j : Nat} (hj : j < 32) :
    bitAt words (32 * q + j) = (words q).getLsbD j := by
  have hdiv : (32 * q + j) / 32 = q := by omega
  have hmod : (32 * q + j) % 32 = j := by omega
  rw [bitAt, hdiv, hmod]

theorem toNat_one_shiftLeft {w n : Nat} (h : n < w) : ((1 : BitVec w) <<< n).toNat = 2 ^ n := by
  have htwo : ((1 : BitVec w) <<< n).toNat = 2 ^ n % 2 ^ w := BitVec.toNat_twoPow w n
  rw [htwo, Nat.mod_eq_of_lt (Nat.pow_lt_pow_right (by decide) h)]

theorem getLsbD_mask {width : Nat} (h : width < 128) (p : Nat) :
    (((1 : BitVec 128) <<< width) - 1).getLsbD p = decide (p < width) := by
  have hone := toNat_one_shiftLeft h
  have hle : (1 : BitVec 128) ≤ (1 : BitVec 128) <<< width := by
    rw [BitVec.le_def, hone]
    exact Nat.one_le_two_pow
  rw [← BitVec.testBit_toNat, BitVec.toNat_sub_of_le hle, hone]
  exact Nat.testBit_two_pow_sub_one width p

theorem getLsbD_next {n : Nat} (x : BitVec 32) (h : n < 32) (p : Nat) :
    (x % ((1 : BitVec 32) <<< n)).getLsbD p = (decide (p < n) && x.getLsbD p) := by
  rw [← BitVec.testBit_toNat, BitVec.toNat_umod, toNat_one_shiftLeft h, Nat.testBit_mod_two_pow]
  rfl

/-! ## One value -/

/-- The part of a value that goes into the word `k` after the one it starts in. -/
def wordPart (value : BitVec 128) (shl k : Nat) : BitVec 32 :=
  if k = 0 then (value <<< shl).setWidth 32 else (value >>> (32 * k - shl)).setWidth 32

theorem getLsbD_wordPart (value : BitVec 128) {shl k j : Nat} (hshl : shl < 32) (hj : j < 32) :
    (wordPart value shl k).getLsbD j =
      (decide (shl ≤ 32 * k + j) && value.getLsbD (32 * k + j - shl)) := by
  unfold wordPart
  split <;> rename_i hk
  · subst hk
    simp only [BitVec.getLsbD_setWidth, BitVec.getLsbD_shiftLeft, Nat.mul_zero, Nat.zero_add]
    by_cases h : shl ≤ j
    · simp [hj, h, Nat.not_lt.mpr h, (by omega : j < 128)]
    · simp [hj, h, Nat.not_le.mp h, (by omega : j < 128)]
  · simp only [BitVec.getLsbD_setWidth, BitVec.getLsbD_ushiftRight, hj, decide_true, Bool.true_and]
    rw [decide_eq_true (by omega : shl ≤ 32 * k + j), Bool.true_and]
    congr 1
    omega

def fill (words : Words) (out : Nat) (f : Nat → BitVec 32) (n : Nat) : Words := fun q =>
  if out ≤ q ∧ q < out + n then f (q - out) else words q

theorem fill_one (words : Words) (out : Nat) (f : Nat → BitVec 32) :
    Function.update words out (f 0) = fill words out f 1 := by
  funext q
  rw [Function.update_apply, fill]
  by_cases h : q = out
  · rw [if_pos h, if_pos (by omega), h, Nat.sub_self]
  · rw [if_neg h, if_neg (by omega)]

theorem fill_succ (words : Words) (out : Nat) (f : Nat → BitVec 32) (n : Nat) :
    Function.update (fill words out f n) (out + n) (f n) = fill words out f (n + 1) := by
  funext q
  rw [Function.update_apply, fill, fill]
  by_cases h : q = out + n
  · rw [if_pos h, if_pos (by omega), h, Nat.add_sub_cancel_left]
  · rw [if_neg h]
    by_cases hq : out ≤ q ∧ q < out + n
    · rw [if_pos hq, if_pos (by omega)]
    · rw [if_neg hq, if_neg (by omega)]

/-- The words of a value. The first one may have been begun. -/
def valueWord (words : Words) (out : Nat) (value : BitVec 128) (shl k : Nat) : BitVec 32 :=
  if k = 0 ∧ shl ≠ 0 then words out ||| wordPart value shl 0 else wordPart value shl k

theorem packSingle_eq {value : BitVec 128} {words : Words} {out delta shl : Nat}
    (hdelta : 0 < delta ∧ delta < 128) (hshl : shl < 32) :
    packSingle value words out delta shl (((1 : BitVec 128) <<< delta) - 1) =
      (fill words out (valueWord words out (value &&& (((1 : BitVec 128) <<< delta) - 1)) shl)
        ((delta + shl + 31) / 32), out + (delta + shl) / 32) := by
  have hlow : 32 ≤ delta + shl → (value <<< shl).setWidth 32 =
      ((value &&& (((1 : BitVec 128) <<< delta) - 1)) <<< shl).setWidth 32 := by
    intro hge
    refine BitVec.eq_of_getLsbD_eq fun j hj => ?_
    simp only [BitVec.getLsbD_setWidth, BitVec.getLsbD_shiftLeft, BitVec.getLsbD_and,
      getLsbD_mask hdelta.2]
    rw [decide_eq_true (by omega : j - shl < delta), Bool.and_true]
  obtain ⟨masked, hmasked⟩ : ∃ masked, masked = value &&& (((1 : BitVec 128) <<< delta) - 1) :=
    ⟨_, rfl⟩
  obtain ⟨f, hf⟩ : ∃ f, f = valueWord words out masked shl := ⟨_, rfl⟩
  have hfirst : (if shl = 0 then masked.setWidth 32
      else words out ||| (masked <<< shl).setWidth 32) = f 0 := by
    rw [hf, valueWord, wordPart]
    by_cases h : shl = 0
    · simp [h]
    · simp [h]
  have hnext : ∀ k, k ≠ 0 → (masked >>> (32 * k - shl)).setWidth 32 = f k := by
    intro k hk
    rw [hf, valueWord, if_neg (by simp [hk]), wordPart, if_neg hk]
  have h1 : (masked >>> (32 - shl)).setWidth 32 = f 1 := hnext 1 (by decide)
  have h2 : (masked >>> (64 - shl)).setWidth 32 = f 2 := hnext 2 (by decide)
  have h3 : (masked >>> (96 - shl)).setWidth 32 = f 3 := hnext 3 (by decide)
  have h4 : (masked >>> (128 - shl)).setWidth 32 = f 4 := hnext 4 (by decide)
  unfold packSingle
  simp only [← hmasked, ← hf] at hlow ⊢
  by_cases h32 : delta + shl < 32
  · simp only [if_pos h32, hfirst, fill_one]
    rw [(by omega : (delta + shl + 31) / 32 = 1), (by omega : (delta + shl) / 32 = 0), Nat.add_zero]
  simp only [if_neg h32, hfirst, hlow (by omega), h1, h2, h3, h4, fill_one, fill_succ]
  by_cases h64 : delta + shl < 64
  · rw [if_pos h64, (by omega : (delta + shl) / 32 = 1)]
    by_cases hmore : delta + shl > 32
    · rw [if_pos hmore, (by omega : (delta + shl + 31) / 32 = 2)]
    · rw [if_neg hmore, (by omega : (delta + shl + 31) / 32 = 1)]
  rw [if_neg h64]
  by_cases h96 : delta + shl < 96
  · rw [if_pos h96, (by omega : (delta + shl) / 32 = 2)]
    by_cases hmore : delta + shl > 64
    · rw [if_pos hmore, (by omega : (delta + shl + 31) / 32 = 3)]
    · rw [if_neg hmore, (by omega : (delta + shl + 31) / 32 = 2)]
  rw [if_neg h96]
  by_cases h128 : delta + shl < 128
  · rw [if_pos h128, (by omega : (delta + shl) / 32 = 3)]
    by_cases hmore : delta + shl > 96
    · rw [if_pos hmore, (by omega : (delta + shl + 31) / 32 = 4)]
    · rw [if_neg hmore, (by omega : (delta + shl + 31) / 32 = 3)]
  have hstart : words out ||| (masked <<< shl).setWidth 32 = f 0 := by
    rw [← hfirst, if_neg (by omega)]
  rw [if_neg h128, (by omega : (delta + shl) / 32 = 4)]
  simp only [hstart, fill_one, fill_succ]
  by_cases hmore : delta + shl > 128
  · rw [if_pos hmore, (by omega : (delta + shl + 31) / 32 = 5)]
  · rw [if_neg hmore, (by omega : (delta + shl + 31) / 32 = 4)]

theorem packLast_eq {value : BitVec 128} {words : Words} {out delta : Nat}
    (hdelta : delta < 128) (hodd : delta % 32 ≠ 0) :
    packLast value words out delta =
      fill words out (valueWord words out value (delta * 31 % 32)) ((delta + 31) / 32) := by
  obtain ⟨shift, hshift⟩ : ∃ shift, shift = delta * 31 % 32 := ⟨_, rfl⟩
  obtain ⟨f, hf⟩ : ∃ f, f = valueWord words out value shift := ⟨_, rfl⟩
  have hfirst : words out ||| (value <<< shift).setWidth 32 = f 0 := by
    rw [hf, valueWord, if_pos ⟨rfl, by omega⟩, wordPart, if_pos rfl]
  have hnext : ∀ k, k ≠ 0 → (value >>> (32 * k - shift)).setWidth 32 = f k := by
    intro k hk
    rw [hf, valueWord, if_neg (by simp [hk]), wordPart, if_neg hk]
  have h1 : (value >>> (32 - shift)).setWidth 32 = f 1 := hnext 1 (by decide)
  have h2 : (value >>> (64 - shift)).setWidth 32 = f 2 := hnext 2 (by decide)
  have h3 : (value >>> (96 - shift)).setWidth 32 = f 3 := hnext 3 (by decide)
  unfold packLast
  simp only [← hshift, ← hf, hfirst, h1, h2, h3, fill_one]
  by_cases h32 : delta > 32
  · simp only [if_pos h32, fill_succ]
    by_cases h64 : delta > 64
    · simp only [if_pos h64, fill_succ]
      by_cases h96 : delta > 96
      · rw [if_pos h96, (by omega : (delta + 31) / 32 = 4)]
      · rw [if_neg h96, (by omega : (delta + 31) / 32 = 3)]
    · rw [if_neg (by omega), if_neg h64, (by omega : (delta + 31) / 32 = 2)]
  · rw [if_neg (by omega), if_neg (by omega), if_neg h32, (by omega : (delta + 31) / 32 = 1)]

/-- The bits from a place on become those of a value. -/
theorem bitAt_fill {value : BitVec 128} {words : Words} {out shl n : Nat} (hshl : shl < 32)
    (hzero : shl ≠ 0 → ∀ b, 32 * out + shl ≤ b → b < 32 * out + 32 → bitAt words b = false)
    (b : Nat) :
    bitAt (fill words out (valueWord words out value shl) n) b =
      if 32 * out + shl ≤ b ∧ b < 32 * (out + n) then value.getLsbD (b - (32 * out + shl))
      else bitAt words b := by
  obtain ⟨q, j, hj, rfl⟩ : ∃ q j, j < 32 ∧ b = 32 * q + j :=
    ⟨b / 32, b % 32, Nat.mod_lt _ (by decide), (Nat.div_add_mod b 32).symm⟩
  rw [bitAt_word _ hj, fill]
  by_cases hq : out ≤ q ∧ q < out + n
  · rw [if_pos hq]
    obtain ⟨k, rfl⟩ := Nat.exists_eq_add_of_le hq.1
    have hpart := getLsbD_wordPart value (k := k) hshl hj
    rw [Nat.add_sub_cancel_left, valueWord]
    by_cases hk : k = 0 ∧ shl ≠ 0
    · obtain ⟨rfl, hne⟩ := hk
      rw [if_pos ⟨rfl, hne⟩, BitVec.getLsbD_or, hpart, Nat.add_zero, ← bitAt_word words hj]
      by_cases hle : shl ≤ j
      · rw [hzero hne _ (by omega) (by omega), if_pos (by omega), Bool.false_or,
          decide_eq_true (by omega), Bool.true_and]
        congr 1
        omega
      · rw [if_neg (by omega), decide_eq_false (by omega), Bool.false_and, Bool.or_false]
    · rw [if_neg hk, hpart, if_pos (by omega), decide_eq_true (by omega), Bool.true_and]
      congr 1
      omega
  · rw [if_neg hq, if_neg (by omega), bitAt_word _ hj]

/-! ## All values -/

/-- The first `n` values are stored, and the rest of the last word is free. -/
structure Packed (values : Nat → BitVec 128) (width n : Nat) (words : Words) (out : Nat) : Prop where
  place : out = width * n / 32
  stored : ∀ b < width * n, bitAt words b = (values (b / width)).getLsbD (b % width)
  free : width * n % 32 ≠ 0 → ∀ b, width * n ≤ b → b < 32 * out + 32 → bitAt words b = false

variable {values : Nat → BitVec 128} {words : Words} {width n out : Nat}

theorem value_bit {b : Nat} (h : width * n ≤ b) (hlt : b < width * (n + 1)) :
    b / width = n ∧ b % width = b - width * n := by
  rw [Nat.mul_succ] at hlt
  obtain ⟨r, rfl⟩ := Nat.exists_eq_add_of_le h
  have hr : r < width := by omega
  rw [Nat.mul_add_div (by omega), Nat.mul_add_mod, Nat.div_eq_of_lt hr, Nat.mod_eq_of_lt hr]
  exact ⟨rfl, by omega⟩

theorem Packed.step (h : Packed values width n words out) (hwidth : 0 < width ∧ width < 128) :
    Packed values width (n + 1)
      (packSingle (values n) words out width (width * n % 32)
        (((1 : BitVec 128) <<< width) - 1)).1
      (packSingle (values n) words out width (width * n % 32)
        (((1 : BitVec 128) <<< width) - 1)).2 := by
  have hshl : width * n % 32 < 32 := Nat.mod_lt _ (by decide)
  have hmul : width * (n + 1) = width * n + width := Nat.mul_succ _ _
  have hout := h.place
  have hplace : 32 * out + width * n % 32 = width * n := by omega
  rw [packSingle_eq hwidth hshl]
  have hbits := @bitAt_fill (values n &&& (((1 : BitVec 128) <<< width) - 1)) words out
    (width * n % 32) ((width + width * n % 32 + 31) / 32) hshl
    (by rw [hplace]; exact h.free)
  rw [hplace] at hbits
  refine ⟨by simp only; omega, fun b hb => ?_, fun _ b hb hlt => ?_⟩
  · rw [hbits b]
    by_cases hold : b < width * n
    · rw [if_neg (by omega), h.stored b hold]
    · obtain ⟨hdiv, hmod⟩ := value_bit (Nat.not_lt.mp hold) hb
      rw [if_pos (by omega), hdiv, hmod, BitVec.getLsbD_and, getLsbD_mask hwidth.2,
        decide_eq_true (by omega), Bool.and_true]
  · simp only at hlt
    rw [hbits b, if_pos (by omega), BitVec.getLsbD_and, getLsbD_mask hwidth.2,
      decide_eq_false (by omega), Bool.and_false]

theorem packLoop_packed (hwidth : 0 < width ∧ width < 128) : (n : Nat) →
    Packed values width n (packLoop values words width n).1 (packLoop values words width n).2
  | 0 => ⟨(Nat.zero_div 32).symm, fun b hb => absurd hb (Nat.not_lt_zero b), fun h => absurd rfl h⟩
  | n + 1 => (packLoop_packed hwidth n).step hwidth

theorem packLast_packed (h : Packed values width 31 words out) (hwidth : width < 128)
    (hodd : width % 32 ≠ 0) : ∀ b < 32 * width,
      bitAt (packLast (values 31) words out width) b =
        (values (b / width)).getLsbD (b % width) := by
  intro b hb
  have hout := h.place
  have hshift : width * 31 % 32 < 32 := Nat.mod_lt _ (by decide)
  have hplace : 32 * out + width * 31 % 32 = width * 31 := by omega
  have hbits := @bitAt_fill (values 31) words out (width * 31 % 32) ((width + 31) / 32) hshift
    (by rw [hplace]; exact h.free)
  rw [hplace] at hbits
  rw [packLast_eq hwidth hodd, hbits b]
  by_cases hold : b < width * 31
  · rw [if_neg (by omega), h.stored b hold]
  · obtain ⟨hdiv, hmod⟩ := value_bit (Nat.not_lt.mp hold) (by omega)
    rw [if_pos (by omega), hdiv, hmod]

/-- The words of the first values, where each fills `n` of them. -/
theorem packDelta_word {n : Nat} (m : Nat) {q : Nat} (hq : q < n * m) :
    ((List.range m).foldl (fun words i => words.write (n * i)
      ((List.range n).map fun k => (values i >>> (32 * k)).setWidth 32)) words : Words) q =
        (values (q / n) >>> (32 * (q % n))).setWidth 32 := by
  induction m with
  | zero => exact absurd hq (Nat.not_lt_zero q)
  | succ m ih =>
      rw [List.range_succ, List.foldl_append, List.foldl_cons, List.foldl_nil, Memory.write]
      by_cases hold : q < n * m
      · rw [if_neg (by omega), ih hold]
      · obtain ⟨hdiv, hmod⟩ := value_bit (Nat.not_lt.mp hold) hq
        rw [Nat.mul_succ] at hq
        rw [if_pos (by omega), hdiv, hmod, List.getD_eq_getElem?_getD, List.getElem?_map,
          List.getElem?_range (by omega)]
        rfl

theorem packDelta_bits {n : Nat} : ∀ b < 32 * (32 * n),
    bitAt (packDelta n values words) b = (values (b / (32 * n))).getLsbD (b % (32 * n)) := by
  intro b hb
  have hword : b / 32 < n * 32 := by omega
  have hmod : b % (32 * n) = 32 * (b / 32 % n) + b % 32 := by
    rw [Nat.mod_mul, Nat.add_comm]
  rw [bitAt, packDelta, packDelta_word 32 hword, BitVec.getLsbD_setWidth,
    BitVec.getLsbD_ushiftRight, Nat.div_div_eq_div_mul, hmod,
    decide_eq_true (Nat.mod_lt b (by decide)), Bool.true_and]

/-- Packed words have the bits of all values in order. -/
theorem pack_bits (hwidth : width ≤ 128) : ∀ b < 32 * width,
    bitAt (pack values words width) b = (values (b / width)).getLsbD (b % width) := by
  unfold pack
  split
  · omega
  · exact packDelta_bits (n := 1)
  · exact packDelta_bits (n := 2)
  · exact packDelta_bits (n := 3)
  · exact packDelta_bits (n := 4)
  · rename_i h0 h32 h64 h96 h128
    simp only [imp_false] at h0 h32 h64 h96 h128
    have hpos : 0 < width := by omega
    exact packLast_packed (packLoop_packed ⟨hpos, by omega⟩ 31) (by omega) (by omega)

/-! ## Reading the bits of a value -/

/-- What one word gives to a value that starts at a bit of the words. -/
theorem first_bits (words : Words) (pos shr p : Nat) :
    ((words pos).setWidth 128 >>> shr).getLsbD p =
      (decide (p + shr < 32) && bitAt words (32 * pos + shr + p)) := by
  rw [BitVec.getLsbD_ushiftRight, BitVec.getLsbD_setWidth]
  by_cases h : p + shr < 32
  · have hbit : 32 * pos + shr + p = 32 * pos + (shr + p) := by omega
    rw [decide_eq_true (by omega), decide_eq_true h, hbit, bitAt_word words (by omega)]
  · rw [decide_eq_false h, BitVec.getLsbD_of_ge _ _ (by omega), Bool.and_false, Bool.false_and]

theorem next_bits (words : Words) (pos shr : Nat) {k p : Nat} (hk : shr < 32 * k) (hp : p < 128) :
    ((words (pos + k)).setWidth 128 <<< (32 * k - shr)).getLsbD p =
      (decide (32 * k ≤ p + shr ∧ p + shr < 32 * k + 32) && bitAt words (32 * pos + shr + p)) := by
  rw [BitVec.getLsbD_shiftLeft, BitVec.getLsbD_setWidth, decide_eq_true hp, Bool.true_and]
  by_cases hge : 32 * k ≤ p + shr
  · rw [decide_eq_false (by omega : ¬ p < 32 * k - shr),
      decide_eq_true (by omega : p - (32 * k - shr) < 128)]
    by_cases hlt : p + shr < 32 * k + 32
    · have hbit : 32 * pos + shr + p = 32 * (pos + k) + (p - (32 * k - shr)) := by omega
      rw [decide_eq_true ⟨hge, hlt⟩, hbit, bitAt_word words (by omega)]
      rfl
    · rw [BitVec.getLsbD_of_ge _ _ (by omega),
        decide_eq_false fun h : 32 * k ≤ p + shr ∧ p + shr < 32 * k + 32 => hlt h.2]
      rfl
  · rw [decide_eq_true (by omega : p < 32 * k - shr),
      decide_eq_false fun h : 32 * k ≤ p + shr ∧ p + shr < 32 * k + 32 => hge h.1]
    rfl

theorem last_bits (words : Words) {pos shr k p n : Nat} (hk : shr < 32 * k) (hp : p < 128)
    (hn : n < 32) :
    ((words (pos + k) % ((1 : BitVec 32) <<< n)).setWidth 128 <<< (32 * k - shr)).getLsbD p =
      (decide (32 * k ≤ p + shr ∧ p + shr < 32 * k + n) && bitAt words (32 * pos + shr + p)) := by
  rw [BitVec.getLsbD_shiftLeft, BitVec.getLsbD_setWidth, decide_eq_true hp, Bool.true_and,
    getLsbD_next _ hn]
  by_cases hge : 32 * k ≤ p + shr
  · rw [decide_eq_false (by omega : ¬ p < 32 * k - shr),
      decide_eq_true (by omega : p - (32 * k - shr) < 128)]
    by_cases hlt : p + shr < 32 * k + n
    · have hbit : 32 * pos + shr + p = 32 * (pos + k) + (p - (32 * k - shr)) := by omega
      rw [decide_eq_true (by omega : p - (32 * k - shr) < n), decide_eq_true (And.intro hge hlt),
        hbit, bitAt_word words (by omega)]
      rfl
    · rw [decide_eq_false (by omega : ¬ p - (32 * k - shr) < n),
        decide_eq_false fun h : 32 * k ≤ p + shr ∧ p + shr < 32 * k + n => hlt h.2]
      rfl
  · rw [decide_eq_true (by omega : p < 32 * k - shr),
      decide_eq_false fun h : 32 * k ≤ p + shr ∧ p + shr < 32 * k + n => hge h.1]
    rfl

theorem or_window {P Q R : Prop} [Decidable P] [Decidable Q] [Decidable R] (b : Bool)
    (h : P ∨ Q ↔ R) : (decide P && b || decide Q && b) = (decide R && b) := by
  rw [← Bool.and_or_distrib_right, ← Bool.decide_or, decide_eq_decide.mpr h]

/-- The bits of one value, and where the next one starts. -/
theorem unpackSingle_bits (words : Words) (pos : Nat) {delta shr : Nat}
    (hdelta : 0 < delta ∧ delta < 128) (hshr : shr < 32) :
    (unpackSingle words pos delta shr).2 = pos + (delta + shr) / 32 ∧ ∀ p < 128,
      (unpackSingle words pos delta shr).1.getLsbD p =
        (decide (p < delta) && bitAt words (32 * pos + shr + p)) := by
  obtain ⟨out₁, hout₁⟩ : ∃ out, out = (words pos).setWidth 128 >>> shr := ⟨_, rfl⟩
  obtain ⟨out₂, hout₂⟩ : ∃ out, out = out₁ ||| (words (pos + 1)).setWidth 128 <<< (32 - shr) :=
    ⟨_, rfl⟩
  obtain ⟨out₃, hout₃⟩ : ∃ out, out = out₂ ||| (words (pos + 2)).setWidth 128 <<< (64 - shr) :=
    ⟨_, rfl⟩
  obtain ⟨out₄, hout₄⟩ : ∃ out, out = out₃ ||| (words (pos + 3)).setWidth 128 <<< (96 - shr) :=
    ⟨_, rfl⟩
  have h₁ : ∀ p < 128, out₁.getLsbD p =
      (decide (p + shr < 32) && bitAt words (32 * pos + shr + p)) := by
    intro p _
    rw [hout₁, first_bits]
  have h₂ : ∀ p < 128, out₂.getLsbD p =
      (decide (p + shr < 64) && bitAt words (32 * pos + shr + p)) := by
    intro p hp
    rw [hout₂, BitVec.getLsbD_or, h₁ p hp, next_bits words pos shr (k := 1) (by omega) hp]
    exact or_window _ (by omega)
  have h₃ : ∀ p < 128, out₃.getLsbD p =
      (decide (p + shr < 96) && bitAt words (32 * pos + shr + p)) := by
    intro p hp
    rw [hout₃, BitVec.getLsbD_or, h₂ p hp, next_bits words pos shr (k := 2) (by omega) hp]
    exact or_window _ (by omega)
  have h₄ : ∀ p < 128, out₄.getLsbD p =
      (decide (p + shr < 128) && bitAt words (32 * pos + shr + p)) := by
    intro p hp
    rw [hout₄, BitVec.getLsbD_or, h₃ p hp, next_bits words pos shr (k := 3) (by omega) hp]
    exact or_window _ (by omega)
  have hlast : ∀ {out : BitVec 128} {k : Nat}, 0 < k → 32 * k < delta + shr →
      delta + shr < 32 * k + 32 → (∀ p < 128, out.getLsbD p =
        (decide (p + shr < 32 * k) && bitAt words (32 * pos + shr + p))) →
      ∀ p < 128, (out ||| (words (pos + k) % ((1 : BitVec 32) <<< (delta + shr - 32 * k))).setWidth
        128 <<< (32 * k - shr)).getLsbD p =
          (decide (p < delta) && bitAt words (32 * pos + shr + p)) := by
    intro out k hk hgt hlt hout p hp
    rw [BitVec.getLsbD_or, hout p hp, last_bits words (by omega) hp (by omega)]
    exact or_window _ (by omega)
  have hwhole : ∀ {out : BitVec 128} {k : Nat}, delta + shr = 32 * k → (∀ p < 128, out.getLsbD p =
      (decide (p + shr < 32 * k) && bitAt words (32 * pos + shr + p))) → ∀ p < 128,
      out.getLsbD p = (decide (p < delta) && bitAt words (32 * pos + shr + p)) := by
    intro out k hk hout p hp
    rw [hout p hp]
    congr 1
    exact decide_eq_decide.mpr (by omega)
  unfold unpackSingle
  simp only [← hout₁, ← hout₂, ← hout₃, ← hout₄]
  by_cases h32 : delta + shr < 32
  · rw [if_pos h32]
    refine ⟨by simp only; omega, fun p hp => ?_⟩
    rw [BitVec.getLsbD_and, getLsbD_mask hdelta.2, h₁ p hp]
    by_cases hlt : p < delta
    · rw [decide_eq_true (by omega : p + shr < 32), Bool.and_comm, Bool.true_and]
    · rw [decide_eq_false hlt, Bool.and_false, Bool.false_and]
  rw [if_neg h32]
  by_cases h64 : delta + shr < 64
  · rw [if_pos h64]
    by_cases hmore : delta + shr > 32
    · rw [if_pos hmore, Nat.add_comm shr delta]
      exact ⟨by simp only; omega, hlast (k := 1) (by decide) hmore h64 h₁⟩
    · rw [if_neg hmore]
      exact ⟨by simp only; omega, hwhole (k := 1) (by omega) h₁⟩
  rw [if_neg h64]
  by_cases h96 : delta + shr < 96
  · rw [if_pos h96]
    by_cases hmore : delta + shr > 64
    · rw [if_pos hmore]
      exact ⟨by simp only; omega, hlast (k := 2) (by decide) hmore h96 h₂⟩
    · rw [if_neg hmore]
      exact ⟨by simp only; omega, hwhole (k := 2) (by omega) h₂⟩
  rw [if_neg h96]
  by_cases h128 : delta + shr < 128
  · rw [if_pos h128]
    by_cases hmore : delta + shr > 96
    · rw [if_pos hmore]
      exact ⟨by simp only; omega, hlast (k := 3) (by decide) hmore h128 h₃⟩
    · rw [if_neg hmore]
      exact ⟨by simp only; omega, hwhole (k := 3) (by omega) h₃⟩
  rw [if_neg h128]
  by_cases hmore : delta + shr > 128
  · rw [if_pos hmore]
    exact ⟨by simp only; omega, hlast (k := 4) (by decide) hmore (by omega) h₄⟩
  · rw [if_neg hmore]
    exact ⟨by simp only; omega, hwhole (k := 4) (by omega) h₄⟩

theorem unpackLast_bits (words : Words) (pos : Nat) {delta : Nat} (hdelta : delta < 128)
    (hodd : delta % 32 ≠ 0) : ∀ p < 128, (unpackLast words pos delta).getLsbD p =
      (decide (p < delta) && bitAt words (32 * pos + delta * 31 % 32 + p)) := by
  obtain ⟨shift, hshift⟩ : ∃ shift, shift = delta * 31 % 32 := ⟨_, rfl⟩
  have hlt : shift < 32 := by omega
  have hsum : (delta + shift) % 32 = 0 := by omega
  have hfirst : (words pos >>> shift).setWidth 128 = (words pos).setWidth 128 >>> shift := by
    refine BitVec.eq_of_getLsbD_eq fun p hp => ?_
    simp only [BitVec.getLsbD_setWidth, BitVec.getLsbD_ushiftRight]
    by_cases h : shift + p < 128
    · rw [decide_eq_true hp, decide_eq_true h]
    · rw [BitVec.getLsbD_of_ge _ _ (by omega), Bool.and_false, Bool.and_false]
  intro p hp
  have hnext : ∀ {out : BitVec 128} {k : Nat}, 0 < k →
      out.getLsbD p = (decide (p + shift < 32 * k) && bitAt words (32 * pos + shift + p)) →
      (out ||| (words (pos + k)).setWidth 128 <<< (32 * k - shift)).getLsbD p =
        (decide (p + shift < 32 * (k + 1)) && bitAt words (32 * pos + shift + p)) := by
    intro out k hk hout
    rw [BitVec.getLsbD_or, hout, next_bits words pos shift (by omega) hp]
    exact or_window _ (by omega)
  have hend : ∀ {out : BitVec 128} {k : Nat}, delta + shift = 32 * k →
      out.getLsbD p = (decide (p + shift < 32 * k) && bitAt words (32 * pos + shift + p)) →
      out.getLsbD p = (decide (p < delta) && bitAt words (32 * pos + shift + p)) := by
    intro out k hk hout
    rw [hout]
    congr 1
    exact decide_eq_decide.mpr (by omega)
  have h₁ := first_bits words pos shift p
  have h₂ := hnext (k := 1) (by decide) h₁
  have h₃ := hnext (k := 2) (by decide) h₂
  have h₄ := hnext (k := 3) (by decide) h₃
  unfold unpackLast
  simp only [← hshift, hfirst]
  by_cases h32 : delta > 32
  · rw [if_pos h32]
    by_cases h64 : delta > 64
    · rw [if_pos h64]
      by_cases h96 : delta > 96
      · rw [if_pos h96]
        exact hend (k := 4) (by omega) h₄
      · rw [if_neg h96]
        exact hend (k := 3) (by omega) h₃
    · rw [if_neg h64, if_neg (by omega : ¬ delta > 96)]
      exact hend (k := 2) (by omega) h₂
  · rw [if_neg h32, if_neg (by omega : ¬ delta > 64), if_neg (by omega : ¬ delta > 96)]
    exact hend (k := 1) (by omega) h₁

/-- The first words of a value that fills whole ones. -/
theorem unpackDelta_bits (words : Words) (pos : Nat) {p : Nat} (hp : p < 128) (m : Nat) :
    ((List.range m).foldl (fun out k =>
      out ||| (words (pos + k)).setWidth 128 <<< (32 * k)) 0).getLsbD p =
        (decide (p < 32 * m) && bitAt words (32 * pos + p)) := by
  induction m with
  | zero =>
      rw [decide_eq_false (by omega : ¬ p < 32 * 0)]
      exact BitVec.getLsbD_zero
  | succ m ih =>
      have hword : ((words (pos + m)).setWidth 128 <<< (32 * m)).getLsbD p =
          (decide (32 * m ≤ p ∧ p < 32 * m + 32) && bitAt words (32 * pos + p)) := by
        cases m with
        | zero =>
            have hbits := first_bits words pos 0 p
            rw [BitVec.ushiftRight_zero, Nat.add_zero, Nat.add_zero] at hbits
            rw [Nat.mul_zero, Nat.add_zero, BitVec.shiftLeft_zero, hbits]
            congr 1
            exact decide_eq_decide.mpr (by omega)
        | succ m => exact next_bits words pos 0 (by omega) hp
      rw [List.range_succ, List.foldl_append, List.foldl_cons, List.foldl_nil, BitVec.getLsbD_or,
        ih, hword]
      exact or_window _ (by omega)

/-- The values that `n` bits each of some words stand for, from one of them on. -/
def Reads (words : Words) (width first : Nat) (values : List (BitVec 128)) : Prop :=
  ∀ i v, values[i]? = some v → ∀ p < 128,
    v.getLsbD p = (decide (p < width) && bitAt words (width * (first + i) + p))

theorem unpackLoop_reads (words : Words) {width : Nat} (hwidth : 0 < width ∧ width < 128) :
    (n first pos : Nat) → pos = width * first / 32 →
      (unpackLoop words width n first pos).1.length = n ∧
      (unpackLoop words width n first pos).2 = width * (first + n) / 32 ∧
      Reads words width first (unpackLoop words width n first pos).1
  | 0, first, pos, hpos => ⟨rfl, hpos, fun i v hv => by simp [unpackLoop] at hv⟩
  | n + 1, first, pos, hpos => by
      obtain ⟨hnext, hbits⟩ := unpackSingle_bits words pos hwidth
        (Nat.mod_lt (width * first) (by decide : 0 < 32))
      have hmul : width * (first + 1) = width * first + width := Nat.mul_succ _ _
      have hplace : 32 * pos + width * first % 32 = width * first := by omega
      obtain ⟨hlen, hend, hreads⟩ := unpackLoop_reads words hwidth n (first + 1)
        (unpackSingle words pos width (width * first % 32)).2 (by omega)
      rw [unpackLoop]
      refine ⟨by simp only [List.length_cons, hlen], ?_, fun i v hv p hp => ?_⟩
      · rw [hend, Nat.add_assoc, Nat.add_comm 1 n]
      · cases i with
        | zero =>
            obtain rfl := Option.some.inj hv
            rw [hbits p hp, hplace, Nat.add_zero]
        | succ i =>
            have hshift : first + (i + 1) = first + 1 + i := by omega
            rw [hshift]
            exact hreads i v hv p hp

theorem unpackDelta_reads {n : Nat} : (unpackDelta n words).length = 32 ∧
    Reads words (32 * n) 0 (unpackDelta n words) := by
  refine ⟨by rw [unpackDelta, List.length_map, List.length_range], fun i v hv p hp => ?_⟩
  rw [unpackDelta, List.getElem?_map] at hv
  obtain ⟨j, hj, rfl⟩ := Option.map_eq_some_iff.mp hv
  obtain rfl : i = j := by
    obtain ⟨hlt, hj⟩ := List.getElem?_eq_some_iff.mp hj
    rwa [List.getElem_range] at hj
  rw [unpackDelta_bits words (n * i) hp n, Nat.zero_add, Nat.mul_assoc]

theorem unpack_reads (words : Words) {width : Nat} (hwidth : width ≤ 128) :
    (unpack words width).length = 32 ∧ Reads words width 0 (unpack words width) := by
  unfold unpack
  split
  · refine ⟨List.length_replicate, fun i v hv p hp => ?_⟩
    obtain rfl := List.eq_of_mem_replicate (List.mem_of_getElem? hv)
    exact BitVec.getLsbD_zero
  · exact unpackDelta_reads (n := 1)
  · exact unpackDelta_reads (n := 2)
  · exact unpackDelta_reads (n := 3)
  · exact unpackDelta_reads (n := 4)
  · rename_i h0 h32 h64 h96 h128
    simp only [imp_false] at h0 h32 h64 h96 h128
    have hpos : 0 < width := by omega
    obtain ⟨hlen, hend, hreads⟩ := unpackLoop_reads words ⟨hpos, by omega⟩ 31 0 0 (by simp)
    have hlast := unpackLast_bits words (width * (0 + 31) / 32) (by omega : width < 128)
      (by omega)
    obtain ⟨unpacked, hunpacked⟩ : ∃ unpacked, unpacked = unpackLoop words width 31 0 0 := ⟨_, rfl⟩
    rw [← hunpacked] at hlen hend hreads ⊢
    simp only
    rw [hend]
    refine ⟨by rw [List.length_append, hlen]; rfl, fun i v hv p hp => ?_⟩
    rcases Nat.lt_or_ge i unpacked.1.length with hi | hi
    · rw [List.getElem?_append_left hi] at hv
      exact hreads i v hv p hp
    · rw [List.getElem?_append_right hi, hlen] at hv
      obtain ⟨hi', hv⟩ := List.getElem?_eq_some_iff.mp hv
      rw [List.length_singleton] at hi'
      have hi31 : i = 31 := by omega
      subst hi31
      have hplace : 32 * (width * (0 + 31) / 32) + width * 31 % 32 + p = width * (0 + 31) + p := by
        omega
      rw [← hv, List.getElem_singleton, hlast p hp, hplace]

/-! ## The kernel -/

def wordBytes (words : Words) (n : Nat) : List UInt8 :=
  (words.read 0 n).flatMap fun word => storeBytes 4 word.toNat

def bytesWords (bytes : List UInt8) : Words := fun k =>
  BitVec.ofNat 32 (loadWord ((bytes.drop (4 * k)).take 4))

theorem bytesWords_wordBytes (words : Words) {n k : Nat} (hk : k < n) :
    bytesWords (wordBytes words n) k = words k := by
  have hget : (words.read 0 n)[k]? = some (words k) := by
    rw [Memory.read, List.getElem?_map, List.getElem?_range' hk, Option.map_some, Nat.zero_add,
      Nat.one_mul]
  rw [bytesWords, wordBytes, take_drop_flatMap (fun _ => length_storeBytes ..) hget,
    loadWord_storeBytes, Nat.mod_eq_of_lt (by have := (words k).isLt; omega)]
  rw [BitVec.ofNat_toNat, BitVec.setWidth_eq]

theorem bitAt_bytesWords (words : Words) {n b : Nat} (hb : b < 32 * n) :
    bitAt (bytesWords (wordBytes words n)) b = bitAt words b := by
  rw [bitAt, bitAt, bytesWords_wordBytes words (by omega)]

theorem getLsbD_lowBits (width : Nat) (v : BitVec 128) {p : Nat} (hp : p < 128) :
    (lowBits width v).getLsbD p = (decide (p < width) && v.getLsbD p) := by
  rw [lowBits, BitVec.getLsbD_ofNat, decide_eq_true hp, Bool.true_and, Nat.testBit_mod_two_pow]
  rfl

end HugeIntPacker

open HugeIntPacker in
/-- The packer as a kernel. Packing starts from words that hold anything. -/
def hugeIntPacker (fresh : Words) : BitpackingKernel 128 where
  fastpack width values := wordBytes (pack (fun i => values.getD i 0) fresh width) width
  fastunpack width bytes := unpack (bytesWords bytes) width
  length_fastpack := by
    intro width values _ _
    simp [wordBytes, List.length_flatMap, Nat.mul_comm]
  fastunpack_fastpack := by
    intro width values hwidth hlen
    obtain ⟨hlength, hreads⟩ := unpack_reads
      (bytesWords (wordBytes (pack (fun i => values.getD i 0) fresh width) width)) hwidth
    refine List.ext_getElem (by rw [hlength, List.length_map, hlen]) fun i hi hi' => ?_
    rw [hlength] at hi
    refine BitVec.eq_of_getLsbD_eq fun p hp => ?_
    rw [hreads i _ (List.getElem?_eq_getElem _) p hp, List.getElem_map, getLsbD_lowBits width _ hp,
      Nat.zero_add]
    by_cases hlt : p < width
    · have hb : width * i + p < 32 * width := by
        have hmul : width * (i + 1) ≤ width * 32 := Nat.mul_le_mul_left width hi
        rw [Nat.mul_succ] at hmul
        omega
      have hvalue := value_bit (Nat.le_add_right (width * i) p) (by rw [Nat.mul_succ]; omega)
      rw [bitAt_bytesWords _ hb, pack_bits hwidth _ hb, hvalue.1, hvalue.2,
        Nat.add_sub_cancel_left, List.getD_eq_getElem?_getD, List.getElem?_eq_getElem (by omega),
        Option.getD_some]
    · rw [decide_eq_false hlt, Bool.false_and, Bool.false_and]

end MiniDuck
