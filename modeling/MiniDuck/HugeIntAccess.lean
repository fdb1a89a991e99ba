import MiniDuck.CheckedMemory
import MiniDuck.HugeIntPacker

/-!
# Accesses of the packer of 128-bit values

The packer once more, with every access to a word checked against a
buffer. It is written down after the source access by access, and
`packIn_eq` and `unpackIn_eq` say that a buffer with as many words as the
width has bits is enough for it.
-/

namespace MiniDuck

namespace HugeIntPacker

/-! ## Packing -/

/-- The word `out[0]`, which an earlier value may have begun. -/
def storeFirst (size : Nat) (words : Words) (out shl : Nat) (whole shifted : BitVec 128) :
    Option Words :=
  if shl = 0 then words.store size out (whole.setWidth 32)
  else do
    let first ← words.load size out
    words.store size out (first ||| (shifted <<< shl).setWidth 32)

/-- `*out` behind the words that a value fills, where it reaches that far. -/
def storeRest (size : Nat) (words : Words) (out : Nat) (more : Prop) [Decidable more]
    (rest : BitVec 128) : Option Words :=
  if more then words.store size out (rest.setWidth 32) else some words

/-- `PackSingle` -/
def packSingleIn (size : Nat) (value : BitVec 128) (words : Words) (out delta shl : Nat)
    (mask : BitVec 128) : Option (Words × Nat) :=
  let masked := value &&& mask
  if delta + shl < 32 then do
    let words ← storeFirst size words out shl masked masked
    some (words, out)
  else if delta + shl < 64 then do
    let words ← storeFirst size words out shl masked masked
    let words ← storeRest size words (out + 1) (delta + shl > 32) (masked >>> (32 - shl))
    some (words, out + 1)
  else if delta + shl < 96 then do
    let words ← storeFirst size words out shl masked value
    let words ← words.store size (out + 1) ((masked >>> (32 - shl)).setWidth 32)
    let words ← storeRest size words (out + 2) (delta + shl > 64) (masked >>> (64 - shl))
    some (words, out + 2)
  else if delta + shl < 128 then do
    let words ← storeFirst size words out shl masked value
    let words ← words.store size (out + 1) ((masked >>> (32 - shl)).setWidth 32)
    let words ← words.store size (out + 2) ((masked >>> (64 - shl)).setWidth 32)
    let words ← storeRest size words (out + 3) (delta + shl > 96) (masked >>> (96 - shl))
    some (words, out + 3)
  else do
    let first ← words.load size out
    let words ← words.store size out (first ||| (value <<< shl).setWidth 32)
    let words ← words.store size (out + 1) ((masked >>> (32 - shl)).setWidth 32)
    let words ← words.store size (out + 2) ((masked >>> (64 - shl)).setWidth 32)
    let words ← words.store size (out + 3) ((masked >>> (96 - shl)).setWidth 32)
    let words ← storeRest size words (out + 4) (delta + shl > 128) (masked >>> (128 - shl))
    some (words, out + 4)

/-- `PackLast`, of the value `in[31]`. -/
def packLastIn (size : Nat) (value : BitVec 128) (words : Words) (out delta : Nat) :
    Option Words := do
  let shift := (delta * 31) % 32
  let first ← words.load size out
  let words ← words.store size out (first ||| (value <<< shift).setWidth 32)
  let words ← storeRest size words (out + 1) (delta > 32) (value >>> (32 - shift))
  let words ← storeRest size words (out + 2) (delta > 64) (value >>> (64 - shift))
  storeRest size words (out + 3) (delta > 96) (value >>> (96 - shift))

/-- `PackDelta32` and its siblings, whose values fill `n` words each. -/
def packDeltaIn (n size : Nat) (values : Nat → BitVec 128) (words : Words) : Option Words :=
  (List.range 32).foldlM (fun words i => (List.range n).foldlM (fun words k =>
    words.store size (n * i + k) ((values i >>> (32 * k)).setWidth 32)) words) words

/-- The loop of `Pack` for the first `n` values. -/
def packLoopIn (size : Nat) (values : Nat → BitVec 128) (words : Words) (width : Nat) :
    Nat → Option (Words × Nat)
  | 0 => some (words, 0)
  | n + 1 => do
      let packed ← packLoopIn size values words width n
      packSingleIn size (values n) packed.1 packed.2 width (width * n % 32)
        (((1 : BitVec 128) <<< width) - 1)

/-- `Pack` -/
def packIn (size : Nat) (values : Nat → BitVec 128) (words : Words) (width : Nat) :
    Option Words :=
  match width with
  | 0 => some words
  | 32 => packDeltaIn 1 size values words
  | 64 => packDeltaIn 2 size values words
  | 96 => packDeltaIn 3 size values words
  | 128 => packDeltaIn 4 size values words
  | width => do
      let packed ← packLoopIn size values words width 31
      packLastIn size (values 31) packed.1 packed.2 width

/-! ## Unpacking -/

/-- `in` behind the words that a value fills, where it reaches that far. -/
def loadRest (size : Nat) (words : Words) (pos : Nat) (more : Prop) [Decidable more]
    (nextShr shift : Nat) (out : BitVec 128) : Option (BitVec 128) :=
  if more then do
    let rest ← words.load size pos
    some (out ||| (rest % ((1 : BitVec 32) <<< nextShr)).setWidth 128 <<< shift)
  else some out

/-- `UnpackSingle` -/
def unpackSingleIn (size : Nat) (words : Words) (pos delta shr : Nat) :
    Option (BitVec 128 × Nat) :=
  if delta + shr < 32 then do
    let first ← words.load size pos
    some ((first.setWidth 128 >>> shr) &&& (((1 : BitVec 128) <<< delta) - 1), pos)
  else if delta + shr < 64 then do
    let first ← words.load size pos
    let out := first.setWidth 128 >>> shr
    let out ← loadRest size words (pos + 1) (delta + shr > 32) (shr + delta - 32) (32 - shr) out
    some (out, pos + 1)
  else if delta + shr < 96 then do
    let first ← words.load size pos
    let out := first.setWidth 128 >>> shr
    let second ← words.load size (pos + 1)
    let out := out ||| second.setWidth 128 <<< (32 - shr)
    let out ← loadRest size words (pos + 2) (delta + shr > 64) (delta + shr - 64) (64 - shr) out
    some (out, pos + 2)
  else if delta + shr < 128 then do
    let first ← words.load size pos
    let out := first.setWidth 128 >>> shr
    let second ← words.load size (pos + 1)
    let out := out ||| second.setWidth 128 <<< (32 - shr)
    let third ← words.load size (pos + 2)
    let out := out ||| third.setWidth 128 <<< (64 - shr)
    let out ← loadRest size words (pos + 3) (delta + shr > 96) (delta + shr - 96) (96 - shr) out
    some (out, pos + 3)
  else do
    let first ← words.load size pos
    let out := first.setWidth 128 >>> shr
    let second ← words.load size (pos + 1)
    let out := out ||| second.setWidth 128 <<< (32 - shr)
    let third ← words.load size (pos + 2)
    let out := out ||| third.setWidth 128 <<< (64 - shr)
    let fourth ← words.load size (pos + 3)
    let out := out ||| fourth.setWidth 128 <<< (96 - shr)
    let out ← loadRest size words (pos + 4) (delta + shr > 128) (delta + shr - 128) (128 - shr) out
    some (out, pos + 4)

/-- A word of `UnpackLast`, where the width reaches that far. -/
def loadLast (size : Nat) (words : Words) (pos : Nat) (more : Prop) [Decidable more]
    (shift : Nat) (out : BitVec 128) : Option (BitVec 128) :=
  if more then do
    let word ← words.load size pos
    some (out ||| word.setWidth 128 <<< shift)
  else some out

/-- `UnpackLast`, with the value of `out[31]`. -/
def unpackLastIn (size : Nat) (words : Words) (pos delta : Nat) : Option (BitVec 128) := do
  let shift := (delta * 31) % 32
  let first ← words.load size pos
  let out := (first >>> shift).setWidth 128
  let out ← loadLast size words (pos + 1) (delta > 32) (32 - shift) out
  let out ← loadLast size words (pos + 2) (delta > 64) (64 - shift) out
  loadLast size words (pos + 3) (delta > 96) (96 - shift) out

/-- `UnpackDelta32` and its siblings, whose values fill `n` words each. -/
def unpackDeltaIn (n size : Nat) (words : Words) : Option (List (BitVec 128)) :=
  (List.range 32).mapM fun i => (List.range n).foldlM (fun out k => do
    let word ← words.load size (n * i + k)
    some (out ||| word.setWidth 128 <<< (32 * k))) 0

/-- The loop of `Unpack`, with the place of the value at hand and how many are left. -/
def unpackLoopIn (size : Nat) (words : Words) (width : Nat) :
    Nat → Nat → Nat → Option (List (BitVec 128) × Nat)
  | 0, _, pos => some ([], pos)
  | n + 1, i, pos => do
      let single ← unpackSingleIn size words pos width (width * i % 32)
      let rest ← unpackLoopIn size words width n (i + 1) single.2
      some (single.1 :: rest.1, rest.2)

/-- `Unpack` -/
def unpackIn (size : Nat) (words : Words) (width : Nat) : Option (List (BitVec 128)) :=
  match width with
  | 0 => some unpackDelta0
  | 32 => unpackDeltaIn 1 size words
  | 64 => unpackDeltaIn 2 size words
  | 96 => unpackDeltaIn 3 size words
  | 128 => unpackDeltaIn 4 size words
  | width => do
      let unpacked ← unpackLoopIn size words width 31 0 0
      let last ← unpackLastIn size words unpacked.2 width
      some (unpacked.1 ++ [last])

/-! ## One value -/

variable {size : Nat} {words : Words} {values : Nat → BitVec 128} {width n : Nat}

variable {out : Nat}

theorem storeFirst_eq {shl : Nat} {whole shifted : BitVec 128} (h : out < size) :
    storeFirst size words out shl whole shifted = some (Function.update words out
      (if shl = 0 then whole.setWidth 32
        else words out ||| (shifted <<< shl).setWidth 32)) := by
  unfold storeFirst
  by_cases hshl : shl = 0
  · rw [if_pos hshl, if_pos hshl, Memory.store_of_lt h]
  · rw [if_neg hshl, if_neg hshl, Memory.load_of_lt h, Option.bind_eq_bind, Option.bind_some,
      Memory.store_of_lt h]

theorem storeRest_eq {more : Prop} [Decidable more] {rest : BitVec 128} (h : more → out < size) :
    storeRest size words out more rest =
      some (if more then Function.update words out (rest.setWidth 32) else words) := by
  unfold storeRest
  by_cases hmore : more
  · rw [if_pos hmore, if_pos hmore, Memory.store_of_lt (h hmore)]
  · rw [if_neg hmore, if_neg hmore]

/-- A value keeps to the words that its bits reach. -/
theorem packSingleIn_eq {value mask : BitVec 128} {delta shl : Nat} (hpos : 0 < delta + shl)
    (h : out + (delta + shl + 31) / 32 ≤ size) : packSingleIn size value words out delta shl mask =
      some (packSingle value words out delta shl mask) := by
  have hfirst : out < size := by omega
  unfold packSingleIn packSingle
  by_cases h32 : delta + shl < 32
  · simp only [if_pos h32, storeFirst_eq hfirst, Option.bind_eq_bind, Option.bind_some]
  simp only [if_neg h32, storeFirst_eq hfirst]
  by_cases h64 : delta + shl < 64
  · simp only [if_pos h64, Option.bind_eq_bind, Option.bind_some]
    rw [storeRest_eq (by omega)]
    split <;> rfl
  simp only [if_neg h64, Memory.store_of_lt (by omega : out + 1 < size)]
  by_cases h96 : delta + shl < 96
  · simp only [if_pos h96, Option.bind_eq_bind, Option.bind_some]
    rw [storeRest_eq (by omega)]
    split <;> rfl
  simp only [if_neg h96, Memory.store_of_lt (by omega : out + 2 < size)]
  by_cases h128 : delta + shl < 128
  · simp only [if_pos h128, Option.bind_eq_bind, Option.bind_some]
    rw [storeRest_eq (by omega)]
    split <;> rfl
  simp only [if_neg h128, Memory.load_of_lt hfirst, Memory.store_of_lt hfirst,
    Memory.store_of_lt (by omega : out + 3 < size), Option.bind_eq_bind, Option.bind_some]
  rw [storeRest_eq (by omega)]
  split <;> rfl

theorem packLastIn_eq {value : BitVec 128} {delta : Nat} (hpos : 0 < delta)
    (h : out + (delta + 31) / 32 ≤ size) (hdelta : delta < 128) :
    packLastIn size value words out delta = some (packLast value words out delta) := by
  have hfirst : out < size := by omega
  unfold packLastIn packLast
  simp only [Memory.load_of_lt hfirst, Memory.store_of_lt hfirst, Option.bind_eq_bind,
    Option.bind_some]
  rw [storeRest_eq (by omega), Option.bind_some, storeRest_eq (by omega), Option.bind_some,
    storeRest_eq (by omega)]

theorem loadRest_eq {pos nextShr shift : Nat} {more : Prop} [Decidable more] {out : BitVec 128}
    (h : more → pos < size) :
    loadRest size words pos more nextShr shift out =
      some (if more then
        out ||| (words pos % ((1 : BitVec 32) <<< nextShr)).setWidth 128 <<< shift else out) := by
  unfold loadRest
  by_cases hmore : more
  · rw [if_pos hmore, if_pos hmore, Memory.load_of_lt (h hmore), Option.bind_eq_bind,
      Option.bind_some]
  · rw [if_neg hmore, if_neg hmore]

theorem loadLast_eq {pos shift : Nat} {more : Prop} [Decidable more] {out : BitVec 128}
    (h : more → pos < size) :
    loadLast size words pos more shift out =
      some (if more then out ||| (words pos).setWidth 128 <<< shift else out) := by
  unfold loadLast
  by_cases hmore : more
  · rw [if_pos hmore, if_pos hmore, Memory.load_of_lt (h hmore), Option.bind_eq_bind,
      Option.bind_some]
  · rw [if_neg hmore, if_neg hmore]

theorem unpackSingleIn_eq {pos delta shr : Nat} (hpos : 0 < delta + shr)
    (h : pos + (delta + shr + 31) / 32 ≤ size) :
    unpackSingleIn size words pos delta shr = some (unpackSingle words pos delta shr) := by
  unfold unpackSingleIn unpackSingle
  simp only [Memory.load_of_lt (by omega : pos < size)]
  by_cases h32 : delta + shr < 32
  · simp only [if_pos h32, Option.bind_eq_bind, Option.bind_some]
  simp only [if_neg h32]
  by_cases h64 : delta + shr < 64
  · simp only [if_pos h64, Option.bind_eq_bind, Option.bind_some]
    rw [loadRest_eq (by omega)]
    split <;> rfl
  simp only [if_neg h64, Memory.load_of_lt (by omega : pos + 1 < size)]
  by_cases h96 : delta + shr < 96
  · simp only [if_pos h96, Option.bind_eq_bind, Option.bind_some]
    rw [loadRest_eq (by omega)]
    split <;> rfl
  simp only [if_neg h96, Memory.load_of_lt (by omega : pos + 2 < size)]
  by_cases h128 : delta + shr < 128
  · simp only [if_pos h128, Option.bind_eq_bind, Option.bind_some]
    rw [loadRest_eq (by omega)]
    split <;> rfl
  simp only [if_neg h128, Memory.load_of_lt (by omega : pos + 3 < size), Option.bind_eq_bind,
    Option.bind_some]
  rw [loadRest_eq (by omega)]
  split <;> rfl

theorem unpackLastIn_eq {pos delta : Nat} (hpos : 0 < delta)
    (h : pos + (delta + 31) / 32 ≤ size) (hdelta : delta < 128) :
    unpackLastIn size words pos delta = some (unpackLast words pos delta) := by
  unfold unpackLastIn unpackLast
  simp only [Memory.load_of_lt (by omega : pos < size), Option.bind_eq_bind, Option.bind_some]
  rw [loadLast_eq (by omega), Option.bind_some, loadLast_eq (by omega), Option.bind_some,
    loadLast_eq (by omega)]

/-! ## All values -/

/-- Where a value starts, there is room for it and all that follow. -/
theorem room (width : Nat) {m : Nat} (hn : n < m) :
    width * n / 32 + (width + width * n % 32 + 31) / 32 ≤ (width * m + 31) / 32 := by
  have hmul : width * (n + 1) ≤ width * m := Nat.mul_le_mul_left width hn
  rw [Nat.mul_succ] at hmul
  omega

theorem packLoopIn_eq (hwidth : 0 < width ∧ width < 128) : (n : Nat) → n ≤ 31 →
    packLoopIn width values words width n = some (packLoop values words width n)
  | 0, _ => rfl
  | n + 1, hn => by
      have hplace : (packLoop values words width n).2 = width * n / 32 :=
        (packLoop_packed hwidth n).place
      have hroom := room width (by omega : n < 32)
      rw [packLoopIn, packLoopIn_eq hwidth n (by omega), Option.bind_eq_bind, Option.bind_some]
      exact packSingleIn_eq (by omega) (by omega)

theorem packDeltaIn_eq (hsize : 32 * n ≤ size) :
    packDeltaIn n size values words = some (packDelta n values words) := by
  have hloop : ∀ m, m ≤ 32 → (List.range m).foldlM (fun words i =>
      (List.range n).foldlM (fun words k =>
        words.store size (n * i + k) ((values i >>> (32 * k)).setWidth 32)) words) words =
      some ((List.range m).foldl (fun words i => words.write (n * i)
        ((List.range n).map fun k => (values i >>> (32 * k)).setWidth 32)) words : Words) := by
    intro m hm
    induction m with
    | zero => rfl
    | succ m ih =>
        have hmul : n * (m + 1) ≤ n * 32 := Nat.mul_le_mul_left n hm
        rw [Nat.mul_succ] at hmul
        rw [List.range_succ, List.foldlM_append, ih (by omega), Option.bind_eq_bind,
          Option.bind_some, List.foldlM_cons, Memory.foldlM_store _ _ (by omega),
          List.foldl_append]
        rfl
  exact hloop 32 (Nat.le_refl 32)

theorem width_cases (hwidth : width ≤ 128) :
    width = 0 ∨ width = 32 ∨ width = 64 ∨ width = 96 ∨ width = 128 ∨ width % 32 ≠ 0 := by
  omega

theorem packIn_odd (hodd : width % 32 ≠ 0) : packIn size values words width =
    (packLoopIn size values words width 31).bind fun packed =>
      packLastIn size (values 31) packed.1 packed.2 width := by
  unfold packIn
  split <;> first | rfl | exact absurd rfl hodd

theorem pack_odd (hodd : width % 32 ≠ 0) : pack values words width =
    packLast (values 31) (packLoop values words width 31).1 (packLoop values words width 31).2
      width := by
  unfold pack
  split <;> first | rfl | exact absurd rfl hodd

theorem unpackIn_odd (hodd : width % 32 ≠ 0) : unpackIn size words width =
    (unpackLoopIn size words width 31 0 0).bind fun unpacked =>
      (unpackLastIn size words unpacked.2 width).bind fun last =>
        some (unpacked.1 ++ [last]) := by
  unfold unpackIn
  split <;> first | rfl | exact absurd rfl hodd

theorem unpack_odd (hodd : width % 32 ≠ 0) : unpack words width =
    (unpackLoop words width 31 0 0).1 ++
      [unpackLast words (unpackLoop words width 31 0 0).2 width] := by
  unfold unpack
  split <;> first | rfl | exact absurd rfl hodd

/-- `Pack` keeps to as many words as the width has bits. -/
theorem packIn_eq (values : Nat → BitVec 128) (words : Words) (hwidth : width ≤ 128) :
    packIn width values words width = some (pack values words width) := by
  rcases width_cases hwidth with rfl | rfl | rfl | rfl | rfl | hodd
  · rfl
  · exact packDeltaIn_eq (n := 1) (by decide)
  · exact packDeltaIn_eq (n := 2) (by decide)
  · exact packDeltaIn_eq (n := 3) (by decide)
  · exact packDeltaIn_eq (n := 4) (by decide)
  · have hpos : 0 < width ∧ width < 128 := by omega
    have hplace : (packLoop values words width 31).2 = width * 31 / 32 :=
      (packLoop_packed hpos 31).place
    have hlast : (packLoop values words width 31).2 + (width + 31) / 32 ≤ width := by
      rw [hplace]
      omega
    rw [packIn_odd hodd, pack_odd hodd, packLoopIn_eq hpos 31 (Nat.le_refl 31),
      Option.bind_some]
    exact packLastIn_eq hpos.1 hlast hpos.2

theorem unpackLoopIn_eq (hwidth : 0 < width ∧ width < 128) : (n i pos : Nat) → n + i ≤ 31 →
    pos = width * i / 32 →
      unpackLoopIn width words width n i pos = some (unpackLoop words width n i pos)
  | 0, _, _, _, _ => rfl
  | n + 1, i, pos, hi, hpos => by
      have hroom := room width (by omega : i < 32)
      obtain ⟨hnext, -⟩ := unpackSingle_bits words pos hwidth
        (Nat.mod_lt (width * i) (by decide : 0 < 32))
      have hmul : width * (i + 1) = width * i + width := Nat.mul_succ _ _
      rw [unpackLoopIn, unpackSingleIn_eq (by omega) (by omega), Option.bind_eq_bind,
        Option.bind_some, unpackLoopIn_eq hwidth n (i + 1) _ (by omega) (by omega)]
      rfl

theorem mapM_eq_some_map {α β : Type} {f : α → Option β} {g : α → β} : {l : List α} →
    (∀ a ∈ l, f a = some (g a)) → l.mapM f = some (l.map g)
  | [], _ => rfl
  | a :: l, h => by
      rw [List.mapM_cons, h a List.mem_cons_self, Option.bind_eq_bind, Option.bind_some,
        mapM_eq_some_map fun b hb => h b (List.mem_cons_of_mem a hb)]
      rfl

theorem unpackDeltaIn_eq (hsize : 32 * n ≤ size) :
    unpackDeltaIn n size words = some (unpackDelta n words) := by
  have hvalue : ∀ i < 32, ∀ m ≤ n, (List.range m).foldlM (fun (out : BitVec 128) k => do
      let word ← words.load size (n * i + k)
      some (out ||| word.setWidth 128 <<< (32 * k))) 0 = some ((List.range m).foldl
        (fun out k => out ||| (words (n * i + k)).setWidth 128 <<< (32 * k)) 0) := by
    intro i hi m hm
    have hmul : n * (i + 1) ≤ n * 32 := Nat.mul_le_mul_left n hi
    rw [Nat.mul_succ] at hmul
    induction m with
    | zero => rfl
    | succ m ih =>
        rw [List.range_succ, List.foldlM_append, ih (by omega), Option.bind_eq_bind,
          Option.bind_some, List.foldlM_cons, Memory.load_of_lt (by omega), List.foldl_append]
        rfl
  exact mapM_eq_some_map fun i hi => hvalue i (List.mem_range.mp hi) n (Nat.le_refl n)

theorem unpackIn_eq (words : Words) (hwidth : width ≤ 128) :
    unpackIn width words width = some (unpack words width) := by
  rcases width_cases hwidth with rfl | rfl | rfl | rfl | rfl | hodd
  · rfl
  · exact unpackDeltaIn_eq (n := 1) (by decide)
  · exact unpackDeltaIn_eq (n := 2) (by decide)
  · exact unpackDeltaIn_eq (n := 3) (by decide)
  · exact unpackDeltaIn_eq (n := 4) (by decide)
  · have hpos : 0 < width ∧ width < 128 := by omega
    obtain ⟨-, hend, -⟩ := unpackLoop_reads words hpos 31 0 0 (by simp)
    have hlast : (unpackLoop words width 31 0 0).2 + (width + 31) / 32 ≤ width := by
      rw [hend]
      omega
    rw [unpackIn_odd hodd, unpack_odd hodd, unpackLoopIn_eq hpos 31 0 0 (by decide) (by simp),
      Option.bind_some, unpackLastIn_eq hpos.1 hlast hpos.2]
    rfl

/-! ## What is left alone -/

theorem fill_of_ge {q : Nat} {f : Nat → BitVec 32} (h : out + n ≤ q) :
    fill words out f n q = words q :=
  if_neg (by omega)

theorem packLoop_of_ge (hwidth : 0 < width ∧ width < 128) {q : Nat} (hq : width ≤ q) :
    (n : Nat) → n ≤ 31 → (packLoop values words width n).1 q = words q
  | 0, _ => rfl
  | n + 1, hn => by
      have hplace : (packLoop values words width n).2 = width * n / 32 :=
        (packLoop_packed hwidth n).place
      have hroom := room width (by omega : n < 32)
      rw [packLoop, packSingle_eq hwidth (Nat.mod_lt _ (by decide))]
      exact (fill_of_ge (by omega)).trans (packLoop_of_ge hwidth hq n (by omega))

theorem packDelta_of_ge {q : Nat} (hq : 32 * n ≤ q) : packDelta n values words q = words q := by
  have hloop : ∀ m, m ≤ 32 → ((List.range m).foldl (fun words i => words.write (n * i)
      ((List.range n).map fun k => (values i >>> (32 * k)).setWidth 32)) words : Words) q =
        words q := by
    intro m hm
    induction m with
    | zero => rfl
    | succ m ih =>
        have hmul : n * (m + 1) ≤ n * 32 := Nat.mul_le_mul_left n hm
        rw [Nat.mul_succ] at hmul
        rw [List.range_succ, List.foldl_append, List.foldl_cons, List.foldl_nil, Memory.write,
          if_pos (by omega), List.getD_eq_getElem?_getD, List.getElem?_eq_none (by simp; omega),
          Option.getD_none, ih (by omega)]
  exact hloop 32 (Nat.le_refl 32)

theorem pack_of_ge (hwidth : width ≤ 128) {q : Nat} (hq : width ≤ q) :
    pack values words width q = words q := by
  rcases width_cases hwidth with rfl | rfl | rfl | rfl | rfl | hodd
  · rfl
  · exact packDelta_of_ge (n := 1) hq
  · exact packDelta_of_ge (n := 2) hq
  · exact packDelta_of_ge (n := 3) hq
  · exact packDelta_of_ge (n := 4) hq
  · have hpos : 0 < width ∧ width < 128 := by omega
    have hplace : (packLoop values words width 31).2 = width * 31 / 32 :=
      (packLoop_packed hpos 31).place
    rw [pack_odd hodd, packLast_eq hpos.2 hodd, fill_of_ge (by rw [hplace]; omega)]
    exact packLoop_of_ge hpos hq 31 (Nat.le_refl 31)

/-! ## The round trip -/

theorem unpack_pack (values : Nat → BitVec 128) (words : Words) (hwidth : width ≤ 128) :
    unpack (pack values words width) width =
      (List.range 32).map fun i => BitVec.ofNat 128 ((values i).toNat % 2 ^ width) := by
  obtain ⟨hlen, hreads⟩ := unpack_reads (pack values words width) hwidth
  refine List.ext_getElem? fun i => ?_
  rcases Nat.lt_or_ge i 32 with hi | hi
  · obtain ⟨v, hv⟩ : ∃ v, (unpack (pack values words width) width)[i]? = some v :=
      ⟨_, List.getElem?_eq_getElem (by omega)⟩
    rw [hv, List.getElem?_map, List.getElem?_range hi, Option.map_some, Option.some_inj]
    refine BitVec.eq_of_getLsbD_eq fun p hp => ?_
    rw [hreads i v hv p hp, BitVec.getLsbD_ofNat, decide_eq_true hp, Bool.true_and,
      Nat.testBit_mod_two_pow, BitVec.testBit_toNat, Nat.zero_add]
    by_cases hlt : p < width
    · have hbit : width * i + p < 32 * width := by
        have := Nat.mul_le_mul_left width (by omega : i + 1 ≤ 32)
        rw [Nat.mul_succ] at this
        omega
      obtain ⟨hdiv, hmod⟩ := value_bit (Nat.le_add_right (width * i) p)
        (by rw [Nat.mul_succ]; omega)
      rw [pack_bits hwidth _ hbit, hdiv, hmod, Nat.add_sub_cancel_left]
    · rw [decide_eq_false hlt, Bool.false_and, Bool.false_and]
  · rw [List.getElem?_eq_none (by omega), List.getElem?_eq_none (by simpa using hi)]

/-- In a buffer with as many words as the width has bits, both directions
find all words that they ask for, packing sets every bit of it and nothing
else, and unpacking gives the low bits of each value. -/
theorem packIn_unpackIn (values : Nat → BitVec 128) (words : Words) {width : Nat}
    (hwidth : width ≤ 128) :
    ∃ packed, packIn width values words width = some packed ∧
      (∀ b < 32 * width, bitAt packed b = (values (b / width)).getLsbD (b % width)) ∧
      (∀ q, width ≤ q → packed q = words q) ∧
      unpackIn width packed width = some ((List.range 32).map fun i =>
        BitVec.ofNat 128 ((values i).toNat % 2 ^ width)) :=
  ⟨pack values words width, packIn_eq values words hwidth, pack_bits hwidth,
    fun _ hq => pack_of_ge hwidth hq,
    by rw [unpackIn_eq _ hwidth, unpack_pack values words hwidth]⟩

/-- Values of 33 bits, of which the last ones reach into a word of their own. -/
theorem packIn_unpackIn_33 :
    ∃ packed, packIn 33 (fun i => BitVec.ofNat 128 (2 ^ 100 + 2 ^ 32 + i)) (fun _ => 7) 33 =
        some packed ∧
      (∀ b < 32 * 33, bitAt packed b =
        (BitVec.ofNat 128 (2 ^ 100 + 2 ^ 32 + b / 33)).getLsbD (b % 33)) ∧
      (∀ q, 33 ≤ q → packed q = 7) ∧
      unpackIn 33 packed 33 = some ((List.range 32).map fun i =>
        BitVec.ofNat 128 ((BitVec.ofNat 128 (2 ^ 100 + 2 ^ 32 + i)).toNat % 2 ^ 33)) :=
  packIn_unpackIn (fun i => BitVec.ofNat 128 (2 ^ 100 + 2 ^ 32 + i)) (fun _ => 7) (by decide)

end HugeIntPacker

end MiniDuck
