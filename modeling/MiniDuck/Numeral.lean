import Mathlib

/-!
# Decimal numerals

Decimal numbers as they are written: an optional sign, digits, and
optionally a decimal point and more digits, with a digit somewhere. A
numeral denotes a rational number, which is rounded half away from zero
by its first digit behind the point (`round_value`). The canonical text
of an integer is the one without a superfluous zero or sign.
-/

namespace MiniDuck

structure Numeral where
  /-- `true` for a minus -/
  sign : Option Bool
  integer : List (Fin 10)
  /-- The digits behind the decimal point, if there is one. -/
  fraction : Option (List (Fin 10))
  some_digit : integer ++ fraction.getD [] ≠ []

namespace Numeral

def digitChar (d : Fin 10) : UInt8 := UInt8.ofNat (48 + d)

def signText : Option Bool → List UInt8
  | none => []
  | some false => [43]
  | some true => [45]

def fractionText : Option (List (Fin 10)) → List UInt8
  | none => []
  | some digits => 46 :: digits.map digitChar

def text (n : Numeral) : List UInt8 :=
  signText n.sign ++ n.integer.map digitChar ++ fractionText n.fraction

def ofDecimal (digits : List (Fin 10)) : Nat :=
  digits.foldl (fun n d => n * 10 + d.val) 0

def value (n : Numeral) : ℚ :=
  let fraction := n.fraction.getD []
  let magnitude : ℚ := ofDecimal n.integer + ofDecimal fraction / 10 ^ fraction.length
  if n.sign = some true then -magnitude else magnitude

def roundHalfAwayFromZero (q : ℚ) : ℤ := if q < 0 then -⌊-q + 1 / 2⌋ else ⌊q + 1 / 2⌋

/-- The integer as text, without leading zeros and without a minus before zero. -/
def decimalText (z : ℤ) : List UInt8 :=
  (if z < 0 then [45] else []) ++
    if z = 0 then [48]
    else (Nat.digits 10 z.natAbs).reverse.map fun d => UInt8.ofNat (48 + d)

/-! ## Digits -/

theorem foldl_decimal (digits : List (Fin 10)) : ∀ n : Nat,
    digits.foldl (fun n d => n * 10 + d.val) n = n * 10 ^ digits.length + ofDecimal digits := by
  induction digits with
  | nil => simp [ofDecimal]
  | cons d digits ih =>
      intro n
      have hcons : ofDecimal (d :: digits) = (0 * 10 + d.val) * 10 ^ digits.length +
          ofDecimal digits := ih (0 * 10 + d.val)
      rw [List.foldl_cons, ih, hcons, List.length_cons, pow_succ]
      ring

theorem ofDecimal_append (xs ys : List (Fin 10)) :
    ofDecimal (xs ++ ys) = ofDecimal xs * 10 ^ ys.length + ofDecimal ys := by
  rw [ofDecimal, List.foldl_append, foldl_decimal]
  rfl

theorem ofDecimal_cons (d : Fin 10) (digits : List (Fin 10)) :
    ofDecimal (d :: digits) = d * 10 ^ digits.length + ofDecimal digits := by
  have h := ofDecimal_append [d] digits
  rw [List.singleton_append] at h
  rw [h]
  simp [ofDecimal]

theorem ofDecimal_lt (digits : List (Fin 10)) : ofDecimal digits < 10 ^ digits.length := by
  induction digits with
  | nil => exact Nat.one_pos
  | cons d digits ih =>
      have hd : d.val + 1 ≤ 10 := d.isLt
      have hle := Nat.mul_le_mul_right (10 ^ digits.length) hd
      rw [ofDecimal_cons, List.length_cons, pow_succ]
      linarith

theorem ofDecimal_replicate_append (k : Nat) (digits : List (Fin 10)) :
    ofDecimal (List.replicate k 0 ++ digits) = ofDecimal digits := by
  have hzero : ofDecimal (List.replicate k 0) = 0 := by
    induction k with
    | zero => rfl
    | succ k ih =>
        simp [List.replicate_succ, ofDecimal_cons, ih]
  rw [ofDecimal_append, hzero, zero_mul, zero_add]

/-! ## Rounding -/

def roundsUp : List (Fin 10) → Bool
  | [] => false
  | d :: _ => 5 ≤ d.val

theorem half_le_iff (digits : List (Fin 10)) :
    10 ^ digits.length ≤ 2 * ofDecimal digits ↔ roundsUp digits = true := by
  cases digits with
  | nil => simp [roundsUp, ofDecimal]
  | cons d digits =>
      have hlt := ofDecimal_lt digits
      rw [ofDecimal_cons, List.length_cons, pow_succ, roundsUp, decide_eq_true_eq]
      constructor
      · intro hle
        by_contra hd
        have hmul := Nat.mul_le_mul_right (10 ^ digits.length) (show d.val ≤ 4 by omega)
        linarith
      · intro hd
        have hmul := Nat.mul_le_mul_right (10 ^ digits.length) hd
        linarith

theorem floor_add_half (n : Nat) (digits : List (Fin 10)) :
    ⌊(n : ℚ) + ofDecimal digits / 10 ^ digits.length + 1 / 2⌋ =
      n + if roundsUp digits = true then 1 else 0 := by
  have hpos : (0 : ℚ) < 10 ^ digits.length := by positivity
  have hlt : (ofDecimal digits : ℚ) < 10 ^ digits.length := by exact_mod_cast ofDecimal_lt digits
  have hquotient : (ofDecimal digits : ℚ) / 10 ^ digits.length < 1 := (div_lt_one hpos).mpr hlt
  have hnonneg : (0 : ℚ) ≤ ofDecimal digits / 10 ^ digits.length := by positivity
  have hhalf := half_le_iff digits
  split_ifs with h
  · have hle : (10 : ℚ) ^ digits.length ≤ 2 * ofDecimal digits := by exact_mod_cast hhalf.mpr h
    have hge : 1 / 2 ≤ (ofDecimal digits : ℚ) / 10 ^ digits.length := by
      rw [le_div_iff₀ hpos]
      linarith
    rw [Int.floor_eq_iff]
    push_cast
    constructor <;> linarith
  · have hgt : 2 * (ofDecimal digits : ℚ) < 10 ^ digits.length := by
      exact_mod_cast Nat.lt_of_not_le fun hle => h (hhalf.mp hle)
    have hless : (ofDecimal digits : ℚ) / 10 ^ digits.length < 1 / 2 := by
      rw [div_lt_iff₀ hpos]
      linarith
    rw [Int.floor_eq_iff]
    push_cast
    constructor <;> linarith

theorem round_neg {q : ℚ} (hq : 0 ≤ q) : roundHalfAwayFromZero (-q) = -⌊q + 1 / 2⌋ := by
  rw [roundHalfAwayFromZero]
  obtain hpos | hzero := lt_or_eq_of_le hq
  · rw [if_pos (by linarith), neg_neg]
  · rw [← hzero, if_neg (by norm_num)]
    norm_num

theorem round_value (n : Numeral) : roundHalfAwayFromZero n.value =
    (if n.sign = some true then -1 else 1) *
      (ofDecimal n.integer + if roundsUp (n.fraction.getD []) = true then 1 else 0 : ℤ) := by
  have hnonneg : (0 : ℚ) ≤ ofDecimal n.integer +
      ofDecimal (n.fraction.getD []) / 10 ^ (n.fraction.getD []).length := by positivity
  rw [← floor_add_half (ofDecimal n.integer) (n.fraction.getD []), value]
  by_cases hsign : n.sign = some true
  · rw [if_pos hsign, if_pos hsign, neg_one_mul, round_neg hnonneg]
  · rw [if_neg hsign, if_neg hsign, one_mul, roundHalfAwayFromZero, if_neg (not_lt.mpr hnonneg)]

end Numeral

end MiniDuck
