import MiniDuck.IntegralCompression
import MiniDuck.MergePath

/-!
# Bitpacking

`BitpackingPrimitives` packs 32 values of a type at a time, each in a
number of bits that all of them fit in. The packing itself is a
`BitpackingKernel`, which forgets what a value has above its width and
nothing else. `PackBuffer` calls the kernel group by group and fills up
the last group with zeros; `packBuffer_eq` puts both cases in one form.

A value is a bit pattern in the packed groups (`toBits`), where all
arithmetic wraps, and a number in the statistics.
-/

namespace MiniDuck

/-! ## Values and bit patterns -/

namespace IntegralType

abbrev bits (type : IntegralType) : Nat := 8 * type.width.bytes

/-- `MakeSigned<T>` -/
abbrev makeSigned (type : IntegralType) : IntegralType := ⟨true, type.width⟩

/-- `static_cast<T_U>` -/
def toBits (type : IntegralType) (v : type.Value) : BitVec type.bits := (v.1 : BitVec type.bits)

/-- `static_cast<T>` of a `T_U`. -/
def ofBits (type : IntegralType) (b : BitVec type.bits) : type.Value := type.staticCast b.toNat

theorem wrap_emod (type : IntegralType) (v : Int) : type.wrap (v % 2 ^ type.bits) = type.wrap v := by
  unfold wrap
  have hpow : (2 : Int) ^ (8 * type.width.bytes) = ((2 ^ (8 * type.width.bytes) : Nat) : Int) := by
    norm_cast
  split
  · rw [bits, hpow, Int.emod_bmod]
  · rw [Int.emod_emod]

theorem ofBits_intCast (type : IntegralType) (v : Int) :
    type.ofBits (v : BitVec type.bits) = type.staticCast v := by
  refine Subtype.ext ?_
  have hpos : (0 : Int) ≤ v % 2 ^ type.bits := Int.emod_nonneg _ (Int.pow_pos (by decide)).ne'
  simp only [ofBits, staticCast]
  rw [BitVec.toNat_intCast, Int.toNat_of_nonneg hpos, wrap_emod]

theorem ofBits_toBits (type : IntegralType) (v : type.Value) : type.ofBits (type.toBits v) = v := by
  rw [toBits, ofBits_intCast]
  exact Subtype.ext (staticCast_of_bounds v.2)

/-- What a conversion drops is not part of the bit pattern. -/
theorem intCast_wrap (type : IntegralType) (v : Int) :
    ((type.wrap v : Int) : BitVec type.bits) = (v : BitVec type.bits) := by
  apply BitVec.eq_of_toNat_eq
  rw [BitVec.toNat_intCast, BitVec.toNat_intCast]
  have hpow : (2 : Int) ^ (8 * type.width.bytes) = ((2 ^ (8 * type.width.bytes) : Nat) : Int) := by
    norm_cast
  unfold wrap
  split
  · rw [bits, hpow, Int.bmod_emod]
  · rw [bits, Int.emod_emod]

theorem toBits_staticCast (type : IntegralType) (v : Int) :
    type.toBits (type.staticCast v) = (v : BitVec type.bits) := type.intCast_wrap v

end IntegralType

/-! ## Modes -/

inductive BitpackingMode
  | invalid
  | auto
  | constant
  | constantDelta
  | deltaFor
  | for_
  deriving Repr, DecidableEq

namespace BitpackingMode

def code : BitpackingMode → Nat
  | invalid => 0
  | auto => 1
  | constant => 2
  | constantDelta => 3
  | deltaFor => 4
  | for_ => 5

/-- The reader treats a number that is no mode like `INVALID`. -/
def ofCode : Nat → BitpackingMode
  | 1 => auto
  | 2 => constant
  | 3 => constantDelta
  | 4 => deltaFor
  | 5 => for_
  | _ => invalid

theorem ofCode_code (mode : BitpackingMode) : ofCode mode.code = mode := by cases mode <;> rfl

theorem code_lt (mode : BitpackingMode) : mode.code < 256 := by cases mode <;> decide

end BitpackingMode

structure BitpackingMetadata where
  mode : BitpackingMode
  offset : Nat
  deriving Repr, DecidableEq

def encodeMeta (metadata : BitpackingMetadata) : Nat :=
  metadata.offset ||| (metadata.mode.code <<< 24)

def decodeMeta (encoded : Nat) : BitpackingMetadata where
  mode := .ofCode ((encoded >>> 24) &&& 0xFF)
  offset := encoded &&& 0x00FFFFFF

variable {metadata : BitpackingMetadata}

theorem encodeMeta_eq (h : metadata.offset < 2 ^ 24) :
    encodeMeta metadata = metadata.mode.code * 2 ^ 24 + metadata.offset := by
  rw [encodeMeta, Nat.shiftLeft_eq, Nat.mul_comm, Nat.or_comm,
    ← Nat.two_pow_add_eq_or_of_lt h, Nat.mul_comm]

theorem decodeMeta_encodeMeta (h : metadata.offset < 2 ^ 24) :
    decodeMeta (encodeMeta metadata) = metadata := by
  obtain ⟨mode, offset⟩ := metadata
  have hmode := mode.code_lt
  have hshift : (mode.code * 2 ^ 24 + offset) >>> 24 = mode.code := by
    rw [Nat.shiftRight_eq_div_pow]
    simp only at h
    omega
  have hmask : ∀ x, x &&& 0xFF = x % 256 := fun x => Nat.and_two_pow_sub_one_eq_mod x 8
  have hmask' : ∀ x, x &&& 0x00FFFFFF = x % 2 ^ 24 :=
    fun x => Nat.and_two_pow_sub_one_eq_mod x 24
  simp only at h
  rw [decodeMeta, encodeMeta_eq h, hmask, hmask']
  simp only [hshift]
  rw [Nat.mod_eq_of_lt hmode, BitpackingMode.ofCode_code]
  congr 1
  omega

theorem encodeMeta_lt (h : metadata.offset < 2 ^ 24) : encodeMeta metadata < 256 ^ 4 := by
  have hmode := metadata.mode.code_lt
  rw [encodeMeta_eq h]
  omega

/-! ## Kernels -/

def lowBits {n : Nat} (width : Nat) (v : BitVec n) : BitVec n := BitVec.ofNat n (v.toNat % 2 ^ width)

theorem lowBits_eq {n width : Nat} {v : BitVec n} (h : v.toNat < 2 ^ width) : lowBits width v = v := by
  rw [lowBits, Nat.mod_eq_of_lt h]
  exact BitVec.eq_of_toNat_eq (by rw [BitVec.toNat_ofNat, Nat.mod_eq_of_lt v.isLt])

/-- A kernel for 32 values of `n` bits: `fastpack` stores them in `4 * width`
bytes, and `fastunpack` restores what they have below `width`. -/
structure BitpackingKernel (n : Nat) where
  fastpack : Nat → List (BitVec n) → List UInt8
  fastunpack : Nat → List UInt8 → List (BitVec n)
  length_fastpack : ∀ {width values}, width ≤ n → values.length = 32 →
    (fastpack width values).length = 4 * width
  fastunpack_fastpack : ∀ {width values}, width ≤ n → values.length = 32 →
    fastunpack width (fastpack width values) = values.map (lowBits width)

namespace BitpackingPrimitives

abbrev algorithmGroupSize : Nat := 32

abbrev headerSize : Nat := 8

def roundUpToAlgorithmGroupSize (numToRound : Nat) : Nat :=
  let remainder := numToRound % algorithmGroupSize
  if remainder = 0 then numToRound else numToRound + algorithmGroupSize - remainder

def getRequiredSize (count width : Nat) : Nat := roundUpToAlgorithmGroupSize count * width / 8

def getEffectiveWidth (type : IntegralType) (width : Nat) : Nat :=
  if width + type.width.bytes > type.bits then type.bits else width

/-- `FindMinimumBitWidth<T, is_signed>` of a range of one value. The loop that
shifts the value to zero counts its bits. -/
def minimumBitWidth (type : IntegralType) (isSigned : Bool) (value : type.Value) : Nat :=
  if isSigned && value = ⊥ then type.bits
  else
    let value := if isSigned then max (-value.1) value.1 else value.1
    if value = 0 then 0
    else getEffectiveWidth type ((if isSigned then 1 else 0) + value.toNat.size)

/-- `PackBuffer` without `ASSUME_INPUT_ALIGNED`. -/
def packBuffer {n : Nat} (kernel : BitpackingKernel n) (src : Nat → BitVec n) (count width : Nat) :
    List UInt8 :=
  let misalignedCount := count % algorithmGroupSize
  let groups := count / algorithmGroupSize
  let aligned := (List.range groups).flatMap fun i =>
    kernel.fastpack width ((List.range algorithmGroupSize).map fun j => src (algorithmGroupSize * i + j))
  if misalignedCount = 0 then aligned
  else aligned ++ kernel.fastpack width ((List.range algorithmGroupSize).map fun j =>
    if j < misalignedCount then src (algorithmGroupSize * groups + j) else 0)

/-- The number of algorithm groups that hold `count` values. -/
def algorithmGroups (count : Nat) : Nat :=
  count / algorithmGroupSize + if count % algorithmGroupSize ≠ 0 then 1 else 0

theorem getRequiredSize_eq (count width : Nat) :
    getRequiredSize count width = 4 * width * algorithmGroups count := by
  have h : roundUpToAlgorithmGroupSize count = 32 * algorithmGroups count := by
    simp only [roundUpToAlgorithmGroupSize, algorithmGroups, algorithmGroupSize]
    by_cases h : count % 32 = 0
    · rw [if_pos h, if_neg (by simpa using h)]
      omega
    · rw [if_neg h, if_pos h]
      omega
  have harrange : 32 * algorithmGroups count * width = 8 * (4 * width * algorithmGroups count) := by
    ring
  rw [getRequiredSize, h, harrange, Nat.mul_div_cancel_left _ (by decide)]

variable {type : IntegralType}

theorem getEffectiveWidth_le {width : Nat} : getEffectiveWidth type width ≤ type.bits := by
  unfold getEffectiveWidth
  split
  · exact Nat.le_refl _
  · omega

theorem le_getEffectiveWidth {width : Nat} (h : width ≤ type.bits) :
    width ≤ getEffectiveWidth type width := by
  unfold getEffectiveWidth
  split
  · exact h
  · exact Nat.le_refl _

theorem minimumBitWidth_le (type : IntegralType) (isSigned : Bool) (value : type.Value) :
    minimumBitWidth type isSigned value ≤ type.bits := by
  unfold minimumBitWidth
  split
  · exact Nat.le_refl _
  · extract_lets value
    split
    · exact Nat.zero_le _
    · exact getEffectiveWidth_le

/-- A value that is not negative fits in its width, whatever the type. -/
theorem lt_minimumBitWidth {value : type.Value} (h : 0 ≤ value.1) :
    value.1 < 2 ^ minimumBitWidth type false value := by
  have hsize : value.1.toNat.size ≤ type.bits := by
    have hv := value.2
    obtain ⟨signed, width⟩ := type
    rw [Nat.size_le]
    cases signed <;> cases width <;>
      simp only [IntBounds, IntWidth.bytes, IntegralType.bits] at hv ⊢ <;> norm_num at hv ⊢ <;>
      omega
  have hlt : value.1.toNat < 2 ^ minimumBitWidth type false value := by
    by_cases h0 : value.1 = 0
    · rw [h0]
      exact Nat.two_pow_pos _
    · have hwidth : minimumBitWidth type false value = getEffectiveWidth type value.1.toNat.size := by
        simp [minimumBitWidth, h0]
      rw [hwidth]
      exact Nat.lt_of_lt_of_le (Nat.lt_size_self _)
        (Nat.pow_le_pow_right (by decide) (le_getEffectiveWidth hsize))
  have hcast : (value.1.toNat : Int) = value.1 := Int.toNat_of_nonneg h
  rw [← hcast]
  exact_mod_cast hlt

/-- All groups are packed alike, rows past the end as zeros. -/
theorem packBuffer_eq {n : Nat} (kernel : BitpackingKernel n) (src : Nat → BitVec n)
    (count width : Nat) :
    packBuffer kernel src count width =
      (List.range (algorithmGroups count)).flatMap fun i =>
        kernel.fastpack width ((List.range 32).map fun j =>
          if 32 * i + j < count then src (32 * i + j) else 0) := by
  have haligned : ((List.range (count / 32)).flatMap fun i =>
      kernel.fastpack width ((List.range 32).map fun j => src (32 * i + j))) =
      (List.range (count / 32)).flatMap fun i =>
        kernel.fastpack width ((List.range 32).map fun j =>
          if 32 * i + j < count then src (32 * i + j) else 0) := by
    refine List.flatMap_congr fun i hi => ?_
    rw [List.mem_range] at hi
    congr 1
    refine List.map_congr_left fun j hj => ?_
    rw [List.mem_range] at hj
    rw [if_pos (by omega)]
  simp only [packBuffer, algorithmGroups, algorithmGroupSize]
  split <;> rename_i h
  · rw [if_neg (by simpa using h), Nat.add_zero, haligned]
  · rw [List.range_succ (n := count / 32), List.flatMap_append, haligned, List.flatMap_singleton]
    congr 2
    refine List.map_congr_left fun j hj => ?_
    rw [List.mem_range] at hj
    by_cases hlt : j < count % 32
    · rw [if_pos hlt, if_pos (by omega)]
    · rw [if_neg hlt, if_neg (by omega)]

end BitpackingPrimitives

end MiniDuck
