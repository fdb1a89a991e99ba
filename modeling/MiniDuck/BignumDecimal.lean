import MiniDuck.BignumOrder
import MiniDuck.DecimalLimbs

/-!
# BIGNUM values as text

Binary limbs become decimal ones limb by limb, or by splitting the number
and multiplying the high part with a power that is kept for later
(`binaryToDecimalLimbs_eq`). The one product of limbs that does not
always fit in 32 bits, in the schoolbook conversion, is used only for
its low bits.
-/

namespace MiniDuck

namespace Bignum

open Numeral

def conversionThreshold : Nat := 64

/-- The product `DECIMAL_BASE * hi` of two `digit_t`. Its low bits are used, unless a check that
the code does not make is added. -/
def lowProduct (checked : Bool) (a b : Nat) : Except BignumError Nat :=
  if checked then mul32 a b else .ok (toDigit (a * b))

def convertDigits (checked : Bool) : List Nat → Nat → Except BignumError (List Nat × Nat)
  | [], hi => .ok ([], hi)
  | digit :: digits, hi => do
      let high ← unsigned 64 (digit <<< 32)
      let tmp := high ||| hi
      let hi := toDigit (tmp / decimalBase)
      let product ← lowProduct checked decimalBase hi
      let digit ← sub64 tmp product
      let (digits, hi) ← convertDigits checked digits hi
      return (toDigit digit :: digits, hi)

/-- The limbs that `hi` adds; they are no more than it. -/
def pushLimbs : Nat → Nat → List Nat
  | 0, _ => []
  | n + 1, hi => if hi = 0 then [] else hi % decimalBase :: pushLimbs n (hi / decimalBase)

def convertLimbs (checked : Bool) : List Nat → List Nat → Except BignumError (List Nat)
  | [], digits => .ok digits
  | hi :: binary, digits => do
      let (digits, hi) ← convertDigits checked digits hi
      convertLimbs checked binary (digits ++ pushLimbs hi hi)

/-- The greatest power of two below `size`, and its exponent. -/
def splitSize (size : Nat) : Nat → Nat → Nat → Nat × Nat
  | 0, m, k => (m, k)
  | n + 1, m, k => if 2 * m < size then splitSize size n (2 * m) (k + 1) else (m, k)

/-- Appends `n` squares to the powers. -/
def extendPowers : Nat → List (List Nat) → Except BignumError (List (List Nat))
  | 0, powers => .ok powers
  | n + 1, powers => do
      let last := powers.getLastD []
      let square ← multiplyDecimalLimbs (last.length + last.length + 1) last last
      extendPowers n (powers ++ [square])

/-- `BinaryToDecimalLimbs`, with a bound on the depth of its recursion. -/
def binaryToDecimalLimbs (checked : Bool) : Nat → List Nat → List (List Nat) →
    Except BignumError (List Nat × List (List Nat))
  | 0, _, _ => .error .outOfFuel
  | fuel + 1, binary, powers => do
      if binary.length ≤ conversionThreshold then
        let digits ← convertLimbs checked binary.reverse []
        return (digits, powers)
      -- split the number into high * 2^(32 * m) + low, where m is a power of two
      let (m, k) := splitSize binary.length binary.length 1 0
      let (low, powers) ← binaryToDecimalLimbs checked fuel (binary.take m) powers
      let (high, powers) ← binaryToDecimalLimbs checked fuel (binary.drop m) powers
      let powers ← extendPowers (k + 1 - powers.length) powers
      let power := powers.getD k []
      let digits ← multiplyDecimalLimbs (high.length + power.length + 1) high power
      let digits ← addDecimalLimbs digits low 0
      return (trimLimbs digits, powers)

def getByteArray (blob : List Byte) : Except BignumError (List Byte × Bool) :=
  if blob.length < 4 then .error .blobSize
  else
    let isNegative : Bool := blob.headD 0 &&& 0x80 = 0
    .ok ((blob.drop headerSize).map fun byte => if isNegative then ~~~byte else byte, isNegative)

def readLimbs : List Byte → List Nat
  | b₀ :: b₁ :: b₂ :: b₃ :: bytes =>
      (b₀.toNat <<< 24 ||| b₁.toNat <<< 16 ||| b₂.toNat <<< 8 ||| b₃.toNat) :: readLimbs bytes
  | _ => []

/-- A limb below others as `n` characters, the lowest first. -/
def limbChars : Nat → Nat → List UInt8
  | 0, _ => []
  | n + 1, remain => UInt8.ofNat (48 + remain % 10) :: limbChars n (remain / 10)

/-- The highest limb; it has no more characters than its number. -/
def lastChars : Nat → Nat → List UInt8
  | 0, remain => [UInt8.ofNat (48 + remain % 10)]
  | n + 1, remain => UInt8.ofNat (48 + remain % 10) ::
      if remain / 10 = 0 then [] else lastChars n (remain / 10)

def limbsChars : List Nat → List UInt8
  | [] => []
  | [limb] => lastChars limb limb
  | limb :: limbs => limbChars decimalShift limb ++ limbsChars limbs

def bignumToVarchar (checked : Bool) (blob : List Byte) : Except BignumError (List UInt8) := do
  let (byteArray, isNegative) ← getByteArray blob
  let padding := (4 - byteArray.length % 4) % 4
  let binary := trimLimbs (readLimbs (List.replicate padding 0 ++ byteArray)).reverse
  let (digits, _) ← binaryToDecimalLimbs checked (binary.length + 1) binary [[294967296, 4]]
  let digits := if digits = [] then [0] else digits
  let chars := limbsChars digits ++ if isNegative then [45] else []
  return chars.reverse

/-! ## The schoolbook conversion -/

/-- The low bits of the product are enough: what is left after the subtraction is the remainder. -/
theorem sub_toDigit (n : Nat) :
    toDigit (n - toDigit (decimalBase * (n / decimalBase))) = n % decimalBase := by
  have hdivision := Nat.div_add_mod n decimalBase
  have hsmall : n % decimalBase < 1000000000 := Nat.mod_lt n (by decide)
  rw [toDigit, toDigit]
  generalize decimalBase * (n / decimalBase) = p at *
  generalize n % decimalBase = r at *
  omega

theorem convertDigits_spec : ∀ {digits : List Nat} {hi : Nat}, IsLimbs digits → hi < 2 ^ 32 →
    ∃ digits' hi', convertDigits false digits hi = .ok (digits', hi') ∧ IsLimbs digits' ∧
      hi' < 2 ^ 32 ∧ digits'.length = digits.length ∧
      value digits' + decimalBase ^ digits.length * hi' = value digits * 2 ^ 32 + hi
  | [], hi, h, hhi => ⟨[], hi, rfl, h, hhi, rfl, by simp⟩
  | digit :: digits, hi, h, hhi => by
      have hbase : decimalBase = 1000000000 := rfl
      have hdigit := h.head
      have hhigh : unsigned 64 (digit <<< 32) = .ok (digit <<< 32) := by
        refine unsigned_ok ?_
        rw [Nat.shiftLeft_eq]
        rw [hbase] at hdigit
        omega
      have htmp : digit <<< 32 ||| hi = digit * 2 ^ 32 + hi := by
        rw [← Nat.shiftLeft_add_eq_or_of_lt hhi, Nat.shiftLeft_eq]
      have hquotient : (digit * 2 ^ 32 + hi) / decimalBase < 2 ^ 32 := by
        rw [hbase] at hdigit ⊢
        omega
      obtain ⟨digits', hi', hrec, hdigits', hhi', hlength, hvalue⟩ :=
        convertDigits_spec h.tail hquotient
      have hle : toDigit (decimalBase * ((digit * 2 ^ 32 + hi) / decimalBase)) ≤
          digit * 2 ^ 32 + hi := (Nat.mod_le _ _).trans (Nat.mul_div_le _ _)
      refine ⟨(digit * 2 ^ 32 + hi) % decimalBase :: digits', hi', ?_,
        IsLimbs.cons (Nat.mod_lt _ (by decide)) hdigits', hhi', by simp [hlength], ?_⟩
      · rw [convertDigits, hhigh, ok_bind]
        dsimp only
        rw [htmp]
        rw [toDigit_of_lt hquotient, lowProduct, if_neg Bool.false_ne_true, ok_bind, sub64_ok hle,
          ok_bind, hrec, ok_bind, sub_toDigit]
        rfl
      · have hdivision := Nat.div_add_mod (digit * 2 ^ 32 + hi) decimalBase
        rw [value_cons, value_cons, List.length_cons, pow_succ]
        calc (digit * 2 ^ 32 + hi) % decimalBase + decimalBase * value digits' +
              decimalBase ^ digits.length * decimalBase * hi'
            = (digit * 2 ^ 32 + hi) % decimalBase +
              decimalBase * (value digits' + decimalBase ^ digits.length * hi') := by ring
          _ = (decimalBase * ((digit * 2 ^ 32 + hi) / decimalBase) +
                (digit * 2 ^ 32 + hi) % decimalBase) + decimalBase * (value digits * 2 ^ 32) := by
              rw [hvalue]
              ring
          _ = (digit + decimalBase * value digits) * 2 ^ 32 + hi := by
              rw [hdivision]
              ring

theorem pushLimbs_eq : ∀ {n hi : Nat}, hi ≤ n → pushLimbs n hi = limbsOf hi
  | 0, hi, h => by rw [Nat.le_zero.mp h, pushLimbs, limbsOf, Nat.digits_zero]
  | n + 1, hi, h => by
      rw [pushLimbs]
      split_ifs with hzero
      · rw [hzero, limbsOf, Nat.digits_zero]
      · have hdiv : hi / decimalBase ≤ n := by
          rw [decimalBase]
          omega
        exact congrArg (hi % decimalBase :: ·) (pushLimbs_eq hdiv) |>.trans
          (Nat.digits_def' (by decide) (Nat.pos_of_ne_zero hzero)).symm

theorem convertDigits_limbsOf (n : Nat) {hi : Nat} (hhi : hi < 2 ^ 32) :
    ∃ digits' hi', convertDigits false (limbsOf n) hi = .ok (digits', hi') ∧
      digits' ++ pushLimbs hi' hi' = limbsOf (n * 2 ^ 32 + hi) := by
  obtain ⟨digits', hi', hconvert, hdigits', -, hlength, hvalue⟩ :=
    convertDigits_spec (isLimbs_limbsOf n) hhi
  rw [value_limbsOf] at hvalue
  refine ⟨digits', hi', hconvert, ?_⟩
  rw [pushLimbs_eq le_rfl]
  have hall : value (digits' ++ limbsOf hi') = n * 2 ^ 32 + hi := by
    rw [value_append, hlength, value_limbsOf, hvalue]
  rw [← hall]
  refine digits_eq (by decide) (hdigits'.append (isLimbs_limbsOf hi')) fun hne => ?_
  show decimalBase ^ ((digits' ++ limbsOf hi').length - 1) ≤ value (digits' ++ limbsOf hi')
  rw [hall, List.length_append, hlength]
  by_cases hzero : hi' = 0
  · have hn : n ≠ 0 := by
      rintro rfl
      rw [limbsOf, Nat.digits_zero, List.length_nil] at hlength
      rw [List.eq_nil_of_length_eq_zero hlength, hzero, limbsOf, Nat.digits_zero] at hne
      exact hne rfl
    have hpow : decimalBase ^ ((limbsOf n).length - 1) ≤ n := pow_length_le (by decide) hn
    have hnil : limbsOf 0 = [] := Nat.digits_zero _
    rw [hzero, hnil, List.length_nil, Nat.add_zero]
    omega
  · have hpos : 0 < (limbsOf hi').length :=
      List.length_pos_of_ne_nil (Nat.digits_ne_nil_iff_ne_zero.mpr hzero)
    have hpow : decimalBase ^ ((limbsOf hi').length - 1) ≤ hi' := pow_length_le (by decide) hzero
    calc decimalBase ^ ((limbsOf n).length + (limbsOf hi').length - 1)
        = decimalBase ^ (limbsOf n).length * decimalBase ^ ((limbsOf hi').length - 1) := by
          rw [← pow_add]
          congr 1
          omega
      _ ≤ decimalBase ^ (limbsOf n).length * hi' := Nat.mul_le_mul_left _ hpow
      _ ≤ n * 2 ^ 32 + hi := by
          rw [← hvalue]
          exact Nat.le_add_left _ _

def IsBinary (binary : List Nat) : Prop := ∀ limb ∈ binary, limb < 2 ^ 32

theorem convertLimbs_eq : ∀ (binary : List Nat) (n : Nat), IsBinary binary →
    convertLimbs false binary (limbsOf n) =
      .ok (limbsOf (n * (2 ^ 32) ^ binary.length + Nat.ofDigits (2 ^ 32) binary.reverse))
  | [], n, _ => by simp [convertLimbs]
  | hi :: binary, n, h => by
      obtain ⟨digits', hi', hconvert, hpush⟩ :=
        convertDigits_limbsOf n (h hi List.mem_cons_self)
      rw [convertLimbs, hconvert, ok_bind]
      dsimp only
      rw [hpush, convertLimbs_eq binary _ fun l hl => h l (List.mem_cons_of_mem hi hl),
        List.reverse_cons, Nat.ofDigits_append, Nat.ofDigits_singleton, List.length_reverse,
        List.length_cons, pow_succ]
      refine congrArg (fun n => Except.ok (limbsOf n)) ?_
      ring

theorem schoolbook_eq {binary : List Nat} (h : IsBinary binary) :
    convertLimbs false binary.reverse [] = .ok (limbsOf (Nat.ofDigits (2 ^ 32) binary)) := by
  have hconvert := convertLimbs_eq binary.reverse 0
    fun l hl => h l (List.mem_reverse.mp hl)
  rwa [limbsOf, Nat.digits_zero, Nat.zero_mul, Nat.zero_add, List.reverse_reverse] at hconvert

/-! ## Splitting -/

theorem splitSize_spec (size : Nat) : ∀ (fuel m k : Nat), m = 2 ^ k → m < size →
    size ≤ m * 2 ^ (fuel + 1) →
    ∃ m' k', splitSize size fuel m k = (m', k') ∧ m' = 2 ^ k' ∧ m' < size ∧ size ≤ 2 * m'
  | 0, m, k, hm, hlt, hle => ⟨m, k, rfl, hm, hlt, by rw [Nat.mul_comm]; simpa using hle⟩
  | fuel + 1, m, k, hm, hlt, hle => by
      rw [splitSize]
      split_ifs with hsplit
      · refine splitSize_spec size fuel _ _ ?_ hsplit ?_
        · rw [hm, pow_succ, Nat.mul_comm]
        · calc size ≤ m * 2 ^ (fuel + 1 + 1) := hle
            _ = 2 * m * 2 ^ (fuel + 1) := by ring
      · exact ⟨m, k, rfl, hm, hlt, Nat.le_of_not_lt hsplit⟩

/-- The first `n` powers, where number `k` is 2^(32 * 2^k). -/
def powersUpTo (n : Nat) : List (List Nat) := (List.range n).map fun k => limbsOf (2 ^ (32 * 2 ^ k))

theorem length_powersUpTo (n : Nat) : (powersUpTo n).length = n := by simp [powersUpTo]

theorem extendPowers_eq : ∀ (k n : Nat), 0 < n →
    extendPowers k (powersUpTo n) = .ok (powersUpTo (n + k))
  | 0, _, _ => rfl
  | k + 1, n, hn => by
      obtain ⟨m, rfl⟩ : ∃ m, n = m + 1 := ⟨n - 1, by omega⟩
      have hlast : (powersUpTo (m + 1)).getLastD [] = limbsOf (2 ^ (32 * 2 ^ m)) := by
        rw [powersUpTo, List.range_succ, List.map_append]
        simp
      have hsquare := multiplyDecimalLimbs_eq _ (isLimbs_limbsOf (2 ^ (32 * 2 ^ m)))
        (isLimbs_limbsOf (2 ^ (32 * 2 ^ m))) (Nat.lt_succ_self _)
      have hpower : 2 ^ (32 * 2 ^ m) * 2 ^ (32 * 2 ^ m) = 2 ^ (32 * 2 ^ (m + 1)) := by
        rw [← pow_add]
        congr 1
        ring
      have hnext : powersUpTo (m + 1) ++ [limbsOf (2 ^ (32 * 2 ^ (m + 1)))] =
          powersUpTo (m + 2) := by
        rw [powersUpTo, powersUpTo, List.range_succ (n := m + 1), List.map_append]
        rfl
      rw [value_limbsOf, hpower] at hsquare
      rw [extendPowers]
      simp only [hlast]
      rw [hsquare, ok_bind, hnext, extendPowers_eq k (m + 2) (by omega)]
      congr 2
      omega

theorem getD_powersUpTo {k n : Nat} (h : k < n) :
    (powersUpTo n).getD k [] = limbsOf (2 ^ (32 * 2 ^ k)) := by
  rw [List.getD_eq_getElem _ _ (by rwa [length_powersUpTo])]
  simp [powersUpTo]

/-- The limbs do not depend on the method, nor on the powers that are there already. -/
theorem binaryToDecimalLimbs_eq (fuel : Nat) : ∀ (binary : List Nat) {n : Nat}, IsBinary binary →
    binary.length < fuel → 0 < n →
    ∃ n', binaryToDecimalLimbs false fuel binary (powersUpTo n) =
      .ok (limbsOf (Nat.ofDigits (2 ^ 32) binary), powersUpTo n') ∧ 0 < n' := by
  induction fuel with
  | zero => exact fun _ _ _ hfuel => absurd hfuel (Nat.not_lt_zero _)
  | succ fuel ih =>
      intro binary n hbinary hfuel hn
      rw [binaryToDecimalLimbs]
      by_cases hsmall : binary.length ≤ conversionThreshold
      · rw [if_pos hsmall, schoolbook_eq hbinary]
        exact ⟨n, rfl, hn⟩
      · rw [if_neg hsmall]
        rw [conversionThreshold, not_le] at hsmall
        obtain ⟨m, k, hsplit, hm, hlt, -⟩ :=
          splitSize_spec binary.length binary.length 1 0 rfl (by omega) (by
            have hpow := Nat.lt_two_pow_self (n := binary.length)
            rw [Nat.one_mul, pow_succ]
            omega)
        have hmpos : 0 < m := by
          rw [hm]
          exact Nat.two_pow_pos k
        obtain ⟨n₁, hlow, hn₁⟩ := ih (binary.take m)
          (fun l hl => hbinary l (List.mem_of_mem_take hl)) (by rw [List.length_take]; omega) hn
        obtain ⟨n₂, hhigh, hn₂⟩ := ih (binary.drop m)
          (fun l hl => hbinary l (List.mem_of_mem_drop hl)) (by rw [List.length_drop]; omega) hn₁
        have hpowers := extendPowers_eq (k + 1 - n₂) n₂ hn₂
        have hproduct := multiplyDecimalLimbs_eq _
          (isLimbs_limbsOf (Nat.ofDigits (2 ^ 32) (binary.drop m)))
          (isLimbs_limbsOf (2 ^ (32 * 2 ^ k))) (Nat.lt_succ_self _)
        obtain ⟨sum, hadd, hsum, -, hvalue⟩ := addDecimalLimbs_spec
          (isLimbs_limbsOf (Nat.ofDigits (2 ^ 32) (binary.drop m) * 2 ^ (32 * 2 ^ k)))
          (isLimbs_limbsOf (Nat.ofDigits (2 ^ 32) (binary.take m))) 0
        refine ⟨n₂ + (k + 1 - n₂), ?_, by omega⟩
        rw [hsplit]
        dsimp only
        rw [hlow, ok_bind]
        dsimp only
        rw [hhigh, ok_bind]
        dsimp only
        rw [length_powersUpTo, hpowers, ok_bind, getD_powersUpTo (by omega)]
        rw [value_limbsOf, value_limbsOf] at hproduct
        rw [hproduct, ok_bind, hadd, ok_bind, trimLimbs_eq hsum, hvalue]
        refine congrArg (fun n => Except.ok (limbsOf n, powersUpTo _)) ?_
        have htake : (binary.take m).length = m := by
          rw [List.length_take]
          omega
        have hall : Nat.ofDigits (2 ^ 32) (binary.take m ++ binary.drop m) =
            Nat.ofDigits (2 ^ 32) (binary.take m) +
              (2 ^ 32) ^ (binary.take m).length * Nat.ofDigits (2 ^ 32) (binary.drop m) :=
          Nat.ofDigits_append
        rw [List.take_append_drop, htake, hm, ← pow_mul] at hall
        rw [value_limbsOf, value_limbsOf, hall, ← hm]
        ring

/-! ## Reading the bytes -/

theorem readLimbs_spec : ∀ (bytes : List Byte), bytes.length % 4 = 0 →
    IsBinary (readLimbs bytes) ∧
      Nat.ofDigits (2 ^ 32) (readLimbs bytes).reverse = ByteBits.ofBytes bytes ∧
      4 * (readLimbs bytes).length = bytes.length
  | [], _ => ⟨fun _ h => absurd h List.not_mem_nil, rfl, rfl⟩
  | [_], h => absurd h (show ¬ 1 % 4 = 0 by decide)
  | [_, _], h => absurd h (show ¬ 2 % 4 = 0 by decide)
  | [_, _, _], h => absurd h (show ¬ 3 % 4 = 0 by decide)
  | b₀ :: b₁ :: b₂ :: b₃ :: bytes, h => by
      have h₀ := b₀.isLt
      have h₁ := b₁.isLt
      have h₂ := b₂.isLt
      have h₃ := b₃.isLt
      have hor : ∀ {a b i : Nat}, b < 2 ^ i → a <<< i ||| b = a * 2 ^ i + b := by
        intro a b i hb
        rw [← Nat.shiftLeft_add_eq_or_of_lt hb, Nat.shiftLeft_eq]
      have hlimb : b₀.toNat <<< 24 ||| b₁.toNat <<< 16 ||| b₂.toNat <<< 8 ||| b₃.toNat =
          b₀.toNat * 2 ^ 24 + (b₁.toNat * 2 ^ 16 + (b₂.toNat * 2 ^ 8 + b₃.toNat)) := by
        have hlow : b₂.toNat <<< 8 ||| b₃.toNat = b₂.toNat * 2 ^ 8 + b₃.toNat := hor h₃
        have hmiddle : b₁.toNat <<< 16 ||| (b₂.toNat * 2 ^ 8 + b₃.toNat) =
            b₁.toNat * 2 ^ 16 + (b₂.toNat * 2 ^ 8 + b₃.toNat) := hor (by omega)
        rw [Nat.or_assoc, Nat.or_assoc, hlow, hmiddle, hor (by omega)]
      obtain ⟨hbinary, hvalue, hlength⟩ := readLimbs_spec bytes (by
        simp only [List.length_cons] at h
        omega)
      refine ⟨?_, ?_, ?_⟩
      · intro l hl
        rw [readLimbs, hlimb] at hl
        obtain rfl | hl := List.mem_cons.mp hl
        · omega
        · exact hbinary l hl
      · have hpow : 256 ^ bytes.length = (2 ^ 32) ^ (readLimbs bytes).length := by
          rw [← hlength, pow_mul]
          norm_num
        rw [readLimbs, hlimb, List.reverse_cons, Nat.ofDigits_append, Nat.ofDigits_singleton,
          hvalue,
          List.length_reverse, ← hpow]
        simp only [ByteBits.ofBytes_cons, List.length_cons, pow_succ]
        ring
      · simp only [readLimbs, List.length_cons]
        omega

theorem ofBytes_replicate_append (k : Nat) (bytes : List Byte) :
    ByteBits.ofBytes (List.replicate k 0 ++ bytes) = ByteBits.ofBytes bytes := by
  induction k with
  | zero => rfl
  | succ k ih =>
      rw [List.replicate_succ, List.cons_append, ByteBits.ofBytes_cons, ih]
      simp

theorem getByteArray_encoding (z : ℤ) :
    getByteArray (encoding z) = .ok (dataBytes z.natAbs, decide (z < 0)) := by
  have hlength := length_encoding z
  have hpos := length_dataBytes_pos z.natAbs
  rw [dataLength] at hlength
  have hnegative : decide ((encoding z).headD 0 &&& 0x80 = 0) = decide (z < 0) := by
    obtain ⟨b₀, b₁, b₂, hheader, hvalue⟩ := setHeader_eq (dataBytes z.natAbs).length (z < 0)
    have h₁ := b₁.isLt
    have h₂ := b₂.isLt
    rw [encoding, hheader]
    show decide (b₀ &&& 0x80 = 0) = _
    by_cases hz : z < 0
    · rw [decide_eq_true hz, if_pos rfl] at hvalue
      rw [decide_eq_true hz]
      exact decide_eq_true (top_bit.2 b₀ (by omega)).1
    · rw [decide_eq_false hz, if_neg Bool.false_ne_true] at hvalue
      rw [decide_eq_false hz]
      exact decide_eq_false (top_bit.1 b₀ (by omega)).1
  have hdrop : (encoding z).drop headerSize = if z < 0 then
      (dataBytes z.natAbs).map (fun byte => ~~~byte) else dataBytes z.natAbs := rfl
  rw [getByteArray, if_neg (by omega)]
  simp only [hnegative, hdrop]
  have hnot : (fun byte : Byte => ~~~byte) ∘ (fun byte : Byte => ~~~byte) = id :=
    funext fun _ => BitVec.not_not
  by_cases hz : z < 0
  · simp [hz, hnot]
  · simp [hz]

/-! ## Writing the digits -/

theorem limbChars_append (k : Nat) : ∀ {n : Nat}, n / 10 ^ k ≠ 0 →
    limbChars k (n % 10 ^ k) ++
      (Nat.digits 10 (n / 10 ^ k)).map (fun d => UInt8.ofNat (48 + d)) =
        (Nat.digits 10 n).map fun d => UInt8.ofNat (48 + d) := by
  induction k with
  | zero =>
      intro n _
      rw [pow_zero, Nat.div_one]
      rfl
  | succ k ih =>
      intro n hn
      have hdiv : n / 10 ^ (k + 1) = n / 10 / 10 ^ k := by
        rw [pow_succ, Nat.mul_comm, Nat.div_div_eq_div_mul]
      have hn' : 0 < n := by
        by_contra hzero
        rw [Nat.le_zero.mp (Nat.not_lt.mp hzero), Nat.zero_div] at hn
        exact hn rfl
      have hlow : n % 10 ^ (k + 1) % 10 = n % 10 :=
        Nat.mod_mod_of_dvd n (Dvd.intro_left (10 ^ k) rfl)
      have hhigh : n % 10 ^ (k + 1) / 10 = n / 10 % 10 ^ k := by
        rw [pow_succ, Nat.mul_comm, Nat.mod_mul_right_div_self]
      rw [hdiv] at hn ⊢
      rw [limbChars, hlow, hhigh, List.cons_append, ih hn, Nat.digits_def' (by decide) hn',
        List.map_cons]

theorem lastChars_eq : ∀ {n remain : Nat}, remain ≤ n → remain ≠ 0 →
    lastChars n remain = (Nat.digits 10 remain).map fun d => UInt8.ofNat (48 + d)
  | 0, remain, hle, hne => absurd (Nat.le_zero.mp hle) hne
  | n + 1, remain, hle, hne => by
      rw [lastChars, Nat.digits_def' (by decide) (Nat.pos_of_ne_zero hne), List.map_cons]
      refine congrArg (_ :: ·) ?_
      split_ifs with hzero
      · rw [hzero]
        rfl
      · exact lastChars_eq (by omega) hzero

theorem limbsChars_limbsOf (n : Nat) : n ≠ 0 →
    limbsChars (limbsOf n) = (Nat.digits 10 n).map fun d => UInt8.ofNat (48 + d) := by
  induction n using Nat.strongRecOn with
  | _ n ih =>
      intro hn
      have hbase : decimalBase = 10 ^ 9 := rfl
      have hlimbs : limbsOf n = n % decimalBase :: limbsOf (n / decimalBase) :=
        Nat.digits_def' (by decide) (Nat.pos_of_ne_zero hn)
      by_cases hhigh : n / decimalBase = 0
      · have hlt : n < decimalBase := by
          rw [hbase] at hhigh ⊢
          omega
        have hnil : limbsOf 0 = [] := Nat.digits_zero _
        rw [hlimbs, hhigh, hnil, Nat.mod_eq_of_lt hlt, limbsChars]
        exact lastChars_eq le_rfl hn
      · have hless : n / decimalBase < n := Nat.div_lt_self (Nat.pos_of_ne_zero hn) (by decide)
        obtain ⟨limb, limbs, hcons⟩ : ∃ limb limbs, limbsOf (n / decimalBase) = limb :: limbs :=
          List.exists_cons_of_ne_nil (Nat.digits_ne_nil_iff_ne_zero.mpr hhigh)
        have hrec := ih (n / decimalBase) hless hhigh
        rw [hcons] at hrec
        rw [hlimbs, hcons, limbsChars, hrec, decimalShift]
        · rw [hbase] at hhigh ⊢
          exact limbChars_append 9 hhigh
        · simp

theorem bignumToVarchar_encoding (z : ℤ) :
    bignumToVarchar false (encoding z) = .ok (decimalText z) := by
  obtain ⟨n, hn⟩ : ∃ n, z.natAbs = n := ⟨_, rfl⟩
  obtain ⟨bytes, hbytes⟩ : ∃ bytes, List.replicate ((4 - (dataBytes n).length % 4) % 4) 0 ++
    dataBytes n = bytes := ⟨_, rfl⟩
  have hvalue : ByteBits.ofBytes bytes = n := by
    rw [← hbytes, ofBytes_replicate_append, ofBytes_dataBytes]
  have hlength : bytes.length % 4 = 0 := by
    rw [← hbytes, List.length_append, List.length_replicate]
    omega
  obtain ⟨hbinary, hofDigits, -⟩ := readLimbs_spec bytes hlength
  have hbinary' : IsBinary (trimLimbs (readLimbs bytes).reverse) :=
    fun l hl => hbinary l (List.mem_reverse.mp (mem_trimLimbs hl))
  have hpowers : powersUpTo 1 = [[294967296, 4]] := by
    simp [powersUpTo, limbsOf, decimalBase]
  obtain ⟨n', hconvert, -⟩ := binaryToDecimalLimbs_eq _ _ hbinary'
    (Nat.lt_succ_self _) Nat.one_pos
  rw [hpowers, ofDigits_trimLimbs, hofDigits, hvalue] at hconvert
  rw [bignumToVarchar, getByteArray_encoding, hn, ok_bind]
  dsimp only
  rw [hbytes, hconvert, ok_bind]
  dsimp only
  rw [decimalText, hn]
  by_cases hzero : n = 0
  · have hz : z = 0 := Int.natAbs_eq_zero.mp (hn.trans hzero)
    have hnil : limbsOf 0 = [] := Nat.digits_zero _
    rw [hzero, hnil, hz, if_pos rfl]
    rfl
  · have hz : z ≠ 0 := fun h => hzero (by rw [← hn, h]; rfl)
    have hne : limbsOf n ≠ [] := Nat.digits_ne_nil_iff_ne_zero.mpr hzero
    rw [if_neg hne, limbsChars_limbsOf n hzero, if_neg hz]
    refine congrArg Except.ok ?_
    rw [List.reverse_append, List.map_reverse]
    by_cases hneg : z < 0
    · simp [hneg]
    · simp [hneg]

end Bignum

open Bignum Numeral

/-- Texts are converted exactly, at every size, and no operation on limbs overflows but the product
that `lowProduct` names. -/
theorem bignum_text :
    (∀ n : Numeral, ∃ blob, varcharToBignum n.text = .ok blob ∧
      bignumToVarchar false blob = .ok (decimalText (roundHalfAwayFromZero n.value))) ∧
    (∀ value : List UInt8, (∀ n : Numeral, n.text ≠ value) →
      varcharToBignum value = .error (.conversion value)) ∧
    (∀ binary : List Nat, IsBinary binary →
      ∃ digits powers, binaryToDecimalLimbs false (binary.length + 1) binary [[294967296, 4]] =
          .ok (digits, powers) ∧
        convertLimbs false binary.reverse [] = .ok digits ∧
        digits = Nat.digits decimalBase (Nat.ofDigits (2 ^ 32) binary)) ∧
    ∀ a b : List Nat, IsLimbs a → IsLimbs b →
      ∃ product result, multiplyDecimalLimbs (a.length + b.length + 1) a b = .ok product ∧
        multiplyLimbs a b (List.replicate (a.length + b.length) 0) = .ok result ∧
        trimLimbs result = product ∧
        product = Nat.digits decimalBase (Nat.ofDigits decimalBase a * Nat.ofDigits decimalBase b)
    := by
  refine ⟨fun n => ?_, fun value h => varcharToBignum_error h, fun binary h => ?_,
    fun a b ha hb => ?_⟩
  · exact ⟨_, varcharToBignum_text n, bignumToVarchar_encoding _⟩
  · have hpowers : powersUpTo 1 = [[294967296, 4]] := by
      simp [powersUpTo, limbsOf, decimalBase]
    obtain ⟨n', hconvert, -⟩ := binaryToDecimalLimbs_eq _ _ h (Nat.lt_succ_self _) Nat.one_pos
    rw [hpowers] at hconvert
    exact ⟨_, _, hconvert, schoolbook_eq h, rfl⟩
  · obtain ⟨result, hmultiply, hresult, hvalue⟩ := multiplyLimbs_spec ha hb
      (isLimbs_replicate a.length) List.length_replicate
    rw [value_replicate, Nat.zero_add] at hvalue
    rw [← List.replicate_add] at hmultiply
    refine ⟨_, result, multiplyDecimalLimbs_eq _ ha hb (Nat.lt_succ_self _), hmultiply, ?_, rfl⟩
    rw [trimLimbs_eq hresult, hvalue]

/-- The product of 32 bits overflows when 2^33 is converted. -/
theorem bignum_product_overflows : ∃ n : Numeral,
    n.text = [56, 53, 56, 57, 57, 51, 52, 53, 57, 50] ∧ ∃ blob, varcharToBignum n.text = .ok blob ∧
      bignumToVarchar true blob = .error (.overflow 32) := by
  refine ⟨⟨none, [8, 5, 8, 9, 9, 3, 4, 5, 9, 2], none, by decide⟩, by decide, ?_⟩
  refine ⟨[128, 0, 5, 2, 0, 0, 0, 0], ?_, ?_⟩
  · decide
  · decide

end MiniDuck
