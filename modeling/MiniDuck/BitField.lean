import Mathlib

/-!
# Fields of a packed word

A word of flags and small numbers. `set` writes a number to a range of
bits and `get` reads it back; what is written to one range is not seen in
another (`get_set`, `get_set_of_disjoint`). All statements go through the
single bits.
-/

namespace MiniDuck

namespace BitField

variable {w : Nat}

/-- The lowest `bits` bits. -/
def mask (w bits : Nat) : BitVec w := BitVec.ofNat w (2 ^ bits - 1)

def set (data : BitVec w) (pos bits : Nat) (v : BitVec w) : BitVec w :=
  (data &&& ~~~(mask w bits <<< pos)) ||| ((v <<< pos) &&& (mask w bits <<< pos))

def get (data : BitVec w) (pos bits : Nat) : BitVec w := (data >>> pos) &&& mask w bits

def flag (w pos : Nat) : BitVec w := 1#w <<< pos

def setFlag (data : BitVec w) (pos : Nat) (b : Bool) : BitVec w :=
  if b then data ||| flag w pos else data &&& ~~~(flag w pos)

def hasFlag (data : BitVec w) (pos : Nat) : Bool := decide (data &&& flag w pos ≠ 0#w)

theorem getLsbD_mask (bits i : Nat) :
    (mask w bits).getLsbD i = (decide (i < w) && decide (i < bits)) := by
  rw [mask, BitVec.getLsbD_ofNat, Nat.testBit_two_pow_sub_one]

variable {pos bits : Nat}

theorem getLsbD_set (data v : BitVec w) {i : Nat} (hi : i < w) : (set data pos bits v).getLsbD i =
      if pos ≤ i ∧ i < pos + bits then v.getLsbD (i - pos) else data.getLsbD i := by
  simp only [set, BitVec.getLsbD_or, BitVec.getLsbD_and, BitVec.getLsbD_not,
    BitVec.getLsbD_shiftLeft, getLsbD_mask, hi, decide_true, Bool.true_and]
  by_cases hpos : pos ≤ i
  · by_cases hbits : i < pos + bits
    · have h1 : ¬ i < pos := by omega
      have h2 : i - pos < w := by omega
      have h3 : i - pos < bits := by omega
      simp [hpos, hbits, h1, h2, h3]
    · have h1 : ¬ i < pos := by omega
      have h3 : ¬ i - pos < bits := by omega
      simp [hpos, hbits, h1, h3]
  · have h1 : i < pos := by omega
    simp [hpos, h1]

theorem getLsbD_get (data : BitVec w) (pos bits i : Nat) :
    (get data pos bits).getLsbD i = (data.getLsbD (pos + i) && decide (i < bits)) := by
  rw [get, BitVec.getLsbD_and, BitVec.getLsbD_ushiftRight, getLsbD_mask]
  by_cases hi : i < w
  · simp [hi]
  · have : data.getLsbD (pos + i) = false := BitVec.getLsbD_of_ge data (pos + i) (by omega)
    simp [this]

theorem get_set (data v : BitVec w) (hfit : pos + bits ≤ w) (hv : v.toNat < 2 ^ bits) :
    get (set data pos bits v) pos bits = v := by
  refine BitVec.eq_of_getLsbD_eq fun i hi => ?_
  rw [getLsbD_get]
  by_cases hb : i < bits
  · rw [getLsbD_set data v (by omega), if_pos (by omega), Nat.add_sub_cancel_left]
    simp [hb]
  · have hlow : v.getLsbD i = false := by
      have hle : 2 ^ bits ≤ 2 ^ i := Nat.pow_le_pow_right (by omega) (by omega)
      exact Nat.testBit_lt_two_pow (by omega)
    simp [hb, hlow]

theorem get_set_of_disjoint (data v : BitVec w) {pos' bits' : Nat}
    (h : pos' + bits' ≤ pos ∨ pos + bits ≤ pos') :
    get (set data pos bits v) pos' bits' = get data pos' bits' := by
  refine BitVec.eq_of_getLsbD_eq fun i hi => ?_
  rw [getLsbD_get, getLsbD_get]
  by_cases hw : pos' + i < w
  · by_cases hb : i < bits'
    · rw [getLsbD_set data v hw, if_neg (by omega)]
    · simp [hb]
  · rw [BitVec.getLsbD_of_ge _ _ (by omega), BitVec.getLsbD_of_ge _ _ (by omega)]

/-! ## Flags -/

theorem getLsbD_flag {i : Nat} (hi : i < w) : (flag w pos).getLsbD i = decide (i = pos) := by
  rw [flag, BitVec.getLsbD_shiftLeft, BitVec.getLsbD_one]
  by_cases hlt : i < pos
  · have : ¬ i = pos := by omega
    simp [hlt, this]
  · by_cases heq : i = pos
    · subst heq
      simp [hi]
      omega
    · have : ¬ i - pos = 0 := by omega
      simp [this, heq]

theorem getLsbD_setFlag (data : BitVec w) {i : Nat} (b : Bool) (hi : i < w) :
    (setFlag data pos b).getLsbD i = if i = pos then b else data.getLsbD i := by
  cases b with
  | true =>
      simp only [setFlag, if_true, BitVec.getLsbD_or, getLsbD_flag hi]
      by_cases h : i = pos <;> simp [h]
  | false =>
      simp only [setFlag, Bool.false_eq_true, if_false, BitVec.getLsbD_and, BitVec.getLsbD_not,
        getLsbD_flag hi]
      by_cases h : i = pos <;> simp [h, hi]

theorem hasFlag_eq (data : BitVec w) (hpos : pos < w) : hasFlag data pos = data.getLsbD pos := by
  rw [hasFlag, Bool.eq_iff_iff, decide_eq_true_eq]
  constructor
  · intro hne
    by_contra hfalse
    refine hne (BitVec.eq_of_getLsbD_eq fun i hi => ?_)
    rw [BitVec.getLsbD_and, getLsbD_flag hi, BitVec.getLsbD_zero]
    by_cases h : i = pos
    · subst h
      simpa using hfalse
    · simp [h]
  · intro htrue hzero
    have := congrArg (BitVec.getLsbD · pos) hzero
    simp only [BitVec.getLsbD_and, getLsbD_flag hpos, BitVec.getLsbD_zero] at this
    simp [htrue] at this

theorem hasFlag_setFlag (data : BitVec w) (b : Bool) (hpos : pos < w) :
    hasFlag (setFlag data pos b) pos = b := by
  rw [hasFlag_eq _ hpos, getLsbD_setFlag data b hpos, if_pos rfl]

theorem hasFlag_setFlag_of_ne (data : BitVec w) {pos' : Nat} (b : Bool) (hpos : pos' < w)
    (h : pos' ≠ pos) : hasFlag (setFlag data pos b) pos' = hasFlag data pos' := by
  rw [hasFlag_eq _ hpos, hasFlag_eq _ hpos, getLsbD_setFlag data b hpos, if_neg h]

theorem hasFlag_set (data v : BitVec w) {pos' : Nat} (hpos : pos' < w)
    (h : pos' < pos ∨ pos + bits ≤ pos') :
    hasFlag (set data pos bits v) pos' = hasFlag data pos' := by
  rw [hasFlag_eq _ hpos, hasFlag_eq _ hpos, getLsbD_set data v hpos, if_neg (by omega)]

theorem get_setFlag (data : BitVec w) {pos' : Nat} (b : Bool) (h : pos < pos' ∨ pos' + bits ≤ pos) :
    get (setFlag data pos b) pos' bits = get data pos' bits := by
  refine BitVec.eq_of_getLsbD_eq fun i hi => ?_
  rw [getLsbD_get, getLsbD_get]
  by_cases hw : pos' + i < w
  · by_cases hb : i < bits
    · rw [getLsbD_setFlag data b hw, if_neg (by omega)]
    · simp [hb]
  · rw [BitVec.getLsbD_of_ge _ _ (by omega), BitVec.getLsbD_of_ge _ _ (by omega)]

end BitField

end MiniDuck
