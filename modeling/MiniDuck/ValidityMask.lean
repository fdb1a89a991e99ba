import Mathlib

/-!
# Validity masks and their words

A mask is given by the rows it marks valid, a missing buffer marking every
row. `getValidityEntry` reads it a word of 64 rows at a time, and `countValid`
counts words: whole ones at once, mixed ones bit by bit, the last one cut at
the row count. `countValid_eq` says that it counts the valid rows.
-/

namespace MiniDuck

/-! ## Counting the bits of a word -/

/-- Kernighan's loop: each round clears the lowest set bit of the entry. -/
def kernighanCount (entry valid : Nat) : Nat :=
  if h : entry = 0 then valid else kernighanCount (entry &&& (entry - 1)) (valid + 1)
termination_by entry
decreasing_by exact lt_of_le_of_lt Nat.and_le_right (Nat.sub_lt (Nat.pos_of_ne_zero h) one_pos)

/-- The set bits of `x` below `w`. -/
def bitCount (w x : Nat) : Nat := (List.range w).countP x.testBit

theorem bitCount_succ (w x : Nat) : bitCount (w + 1) x = x % 2 + bitCount w (x / 2) := by
  have hzero : (if x.testBit 0 = true then 1 else 0) = x % 2 := by
    rw [Nat.testBit_zero]
    rcases Nat.mod_two_eq_zero_or_one x with h | h <;> simp [h]
  rw [bitCount, List.range_succ_eq_map, List.countP_cons, List.countP_map, hzero, add_comm]
  congr 1
  refine List.countP_congr fun k _ => ?_
  simp [Nat.testBit_succ]

theorem bitCount_zero (w : Nat) : bitCount w 0 = 0 := by
  simp [bitCount]

/-- Clearing the lowest set bit takes one from the count. -/
theorem bitCount_clear : (w x : Nat) → x ≠ 0 → x < 2 ^ w →
    bitCount w x = bitCount w (x &&& (x - 1)) + 1
  | 0, x, hne, hlt => by
      have : x = 0 := by simpa using hlt
      exact absurd this hne
  | w + 1, x, hne, hlt => by
      rw [bitCount_succ, bitCount_succ w (x &&& (x - 1)), Nat.and_div_two, ← Nat.and_one_is_mod,
        ← Nat.and_one_is_mod (x &&& (x - 1)), Nat.and_assoc]
      rcases Nat.mod_two_eq_zero_or_one x with hx | hx
      · have hhalf : (x - 1) / 2 = x / 2 - 1 := by omega
        have hlow : x &&& 1 = 0 := by rw [Nat.and_one_is_mod, hx]
        have hlow' : x &&& (x - 1 &&& 1) = 0 := by
          rw [Nat.and_comm (x - 1) 1, ← Nat.and_assoc, hlow, Nat.zero_and]
        rw [hhalf, hlow, hlow', bitCount_clear w (x / 2) (by omega) (by omega)]
        omega
      · have hhalf : (x - 1) / 2 = x / 2 := by omega
        have hlow : x &&& 1 = 1 := by rw [Nat.and_one_is_mod, hx]
        have hlow' : x - 1 &&& 1 = 0 := by
          rw [Nat.and_one_is_mod]
          omega
        rw [hhalf, hlow, hlow', Nat.and_zero, Nat.and_self]
        omega

theorem kernighanCount_eq {w : Nat} (x valid : Nat) (hx : x < 2 ^ w) :
    kernighanCount x valid = valid + bitCount w x := by
  induction x using Nat.strong_induction_on generalizing valid with
  | _ x ih =>
    rw [kernighanCount]
    split_ifs with h
    · rw [h, bitCount_zero, add_zero]
    · have hlt : x &&& (x - 1) < x :=
        lt_of_le_of_lt Nat.and_le_right (Nat.sub_lt (Nat.pos_of_ne_zero h) one_pos)
      rw [ih _ hlt _ (hlt.trans hx), bitCount_clear w x h hx]
      omega

/-! ## The words of a mask -/

namespace ValidityMask

def bitsPerValue : Nat := 64

def maxEntry : Nat := 2 ^ bitsPerValue - 1

def entryCount (count : Nat) : Nat := (count + (bitsPerValue - 1)) / bitsPerValue

/-- `GetValidityEntry`: the word of rows `64 * entryIdx` on. -/
def getValidityEntry (mask : Nat → Bool) (entryIdx : Nat) : Nat :=
  Nat.ofBits fun k : Fin bitsPerValue => mask (entryIdx * bitsPerValue + k)

def allValid (entry : Nat) : Bool := entry == maxEntry

def noneValid (entry : Nat) : Bool := entry == 0

/-- `RowIsValid` of an entry. -/
def rowIsValid (entry idxInEntry : Nat) : Bool := decide (entry &&& 1 <<< idxInEntry ≠ 0)

/-- One round of `CountValid`. -/
def countEntry (mask : Nat → Bool) (count : Nat) (valid entryIdx : Nat) : Nat :=
  let entry := getValidityEntry mask entryIdx
  if entryIdx + 1 = entryCount count ∧ count % bitsPerValue ≠ 0 then
    kernighanCount (entry &&& maxEntry >>> (bitsPerValue - count % bitsPerValue)) valid
  else if allValid entry then valid + bitsPerValue
  else kernighanCount entry valid

def countValid (mask : Nat → Bool) (count : Nat) : Nat :=
  (List.range (entryCount count)).foldl (countEntry mask count) 0

theorem getValidityEntry_lt (mask : Nat → Bool) (e : Nat) :
    getValidityEntry mask e < 2 ^ bitsPerValue :=
  Nat.ofBits_lt_two_pow _

theorem testBit_getValidityEntry (mask : Nat → Bool) (e k : Nat) :
    (getValidityEntry mask e).testBit k =
      (decide (k < bitsPerValue) && mask (e * bitsPerValue + k)) := by
  rw [getValidityEntry]
  by_cases hk : k < bitsPerValue
  · rw [Nat.testBit_ofBits_lt _ _ hk]
    simp [hk]
  · rw [Nat.testBit_ofBits_ge _ _ (Nat.le_of_not_lt hk)]
    simp [hk]

theorem testBit_maxEntry (k : Nat) : maxEntry.testBit k = decide (k < bitsPerValue) :=
  Nat.testBit_two_pow_sub_one ..

theorem allValid_iff {mask : Nat → Bool} {e : Nat} :
    allValid (getValidityEntry mask e) = true ↔
      ∀ k < bitsPerValue, mask (e * bitsPerValue + k) = true := by
  rw [allValid, beq_iff_eq]
  constructor
  · intro h k hk
    have := congrArg (·.testBit k) h
    simpa [testBit_getValidityEntry, testBit_maxEntry, hk] using this
  · intro h
    refine Nat.eq_of_testBit_eq fun k => ?_
    rw [testBit_getValidityEntry, testBit_maxEntry]
    by_cases hk : k < bitsPerValue
    · simp [hk, h k hk]
    · simp [hk]

theorem noneValid_iff {mask : Nat → Bool} {e : Nat} :
    noneValid (getValidityEntry mask e) = true ↔
      ∀ k < bitsPerValue, mask (e * bitsPerValue + k) = false := by
  rw [noneValid, beq_iff_eq]
  constructor
  · intro h k hk
    have := congrArg (·.testBit k) h
    simpa [testBit_getValidityEntry, hk] using this
  · intro h
    refine Nat.eq_of_testBit_eq fun k => ?_
    rw [testBit_getValidityEntry, Nat.zero_testBit]
    by_cases hk : k < bitsPerValue
    · simp [hk, h k hk]
    · simp [hk]

theorem rowIsValid_eq (mask : Nat → Bool) (e : Nat) {k : Nat} (hk : k < bitsPerValue) :
    rowIsValid (getValidityEntry mask e) k = mask (e * bitsPerValue + k) := by
  have hbit : (getValidityEntry mask e).testBit k = mask (e * bitsPerValue + k) := by
    simp [testBit_getValidityEntry, hk]
  rw [← hbit, rowIsValid, Nat.one_shiftLeft, Nat.and_two_pow]
  cases (getValidityEntry mask e).testBit k <;> simp

/-! ## Rows in blocks -/

/-- The rows of block `e` below `count`, with `size` rows a block. -/
def blockRows (size count e : Nat) : List Nat :=
  List.range' (e * size) (min (e * size + size) count - e * size)

theorem flatMap_blockRows_range (size count : Nat) :
    (n : Nat) → (List.range n).flatMap (blockRows size count) = List.range (min (n * size) count)
  | 0 => by simp
  | n + 1 => by
      have hlen : min (n * size) count + (min (n * size + size) count - n * size) =
          min ((n + 1) * size) count := by
        rw [Nat.succ_mul]
        omega
      rw [List.range_succ, List.flatMap_append, flatMap_blockRows_range size count n,
        List.flatMap_singleton, blockRows, List.range_eq_range', List.range_eq_range', ← hlen,
        ← List.range'_append_1, Nat.zero_add]
      rcases Nat.le_total (n * size) count with h | h
      · rw [Nat.min_eq_left h]
      · have hnone : min (n * size + size) count - n * size = 0 := by omega
        rw [hnone]
        rfl

/-- The blocks list the rows below `count` in order. -/
theorem flatMap_blockRows {size : Nat} (hsize : 0 < size) (count : Nat) :
    (List.range ((count + (size - 1)) / size)).flatMap (blockRows size count) =
      List.range count := by
  have hcover : count ≤ (count + (size - 1)) / size * size := by
    have := Nat.div_add_mod (count + (size - 1)) size
    have := Nat.mod_lt (count + (size - 1)) hsize
    rw [Nat.mul_comm]
    omega
  rw [flatMap_blockRows_range, Nat.min_eq_right hcover]

/-! ## Counting rows -/

/-- The rows of entry `e` below `count`. -/
abbrev entryRows (count e : Nat) : List Nat := blockRows bitsPerValue count e

theorem flatMap_entryRows (count : Nat) :
    (List.range (entryCount count)).flatMap (entryRows count) = List.range count :=
  flatMap_blockRows (by decide) count

theorem countP_range' (p : Nat → Bool) (base n : Nat) :
    (List.range' base n).countP p = (List.range n).countP fun k => p (base + k) := by
  rw [List.range'_eq_map_range, List.countP_map]
  rfl

/-- A word cut after its first `n` bits counts the first `n` rows. -/
theorem bitCount_cut {n : Nat} (x : Nat) (hn : n ≤ bitsPerValue) :
    bitCount bitsPerValue (x &&& maxEntry >>> (bitsPerValue - n)) =
      (List.range n).countP x.testBit := by
  have hsplit : List.range bitsPerValue =
      List.range n ++ (List.range (bitsPerValue - n)).map (n + ·) := by
    rw [← List.range_add, Nat.add_sub_cancel' hn]
  have hbit : ∀ k, (x &&& maxEntry >>> (bitsPerValue - n)).testBit k =
      (x.testBit k && decide (k < n)) := by
    intro k
    rw [Nat.testBit_and, Nat.testBit_shiftRight, testBit_maxEntry]
    congr 1
    exact decide_eq_decide.2 (by omega)
  rw [bitCount, hsplit, List.countP_append, List.countP_map]
  have hin : (List.range n).countP (x &&& maxEntry >>> (bitsPerValue - n)).testBit =
      (List.range n).countP x.testBit :=
    List.countP_congr fun k hk => by simp [hbit, List.mem_range.1 hk]
  have hout : (List.range (bitsPerValue - n)).countP
      ((x &&& maxEntry >>> (bitsPerValue - n)).testBit ∘ (n + ·)) = 0 :=
    List.countP_eq_zero.2 fun k _ => by simp [hbit]
  rw [hin, hout, Nat.add_zero]

theorem countP_testBit (mask : Nat → Bool) (e : Nat) {n : Nat} (hn : n ≤ bitsPerValue) :
    (List.range n).countP (getValidityEntry mask e).testBit =
      (List.range' (e * bitsPerValue) n).countP mask := by
  rw [countP_range']
  refine List.countP_congr fun k hk => ?_
  have : k < bitsPerValue := (List.mem_range.1 hk).trans_le hn
  simp [testBit_getValidityEntry, this]

theorem countEntry_eq (mask : Nat → Bool) {count e : Nat} (valid : Nat)
    (he : e < entryCount count) :
    countEntry mask count valid e = valid + (entryRows count e).countP mask := by
  have hentry := getValidityEntry_lt mask e
  have hlt : (e + 1) * bitsPerValue < count + bitsPerValue := by
    simp only [entryCount, bitsPerValue] at *
    omega
  rw [countEntry, entryRows, blockRows]
  by_cases hragged : e + 1 = entryCount count ∧ count % bitsPerValue ≠ 0
  · have hrows : min (e * bitsPerValue + bitsPerValue) count - e * bitsPerValue =
        count % bitsPerValue := by
      obtain ⟨hlast, hrest⟩ := hragged
      simp only [entryCount, bitsPerValue] at *
      omega
    have hn : count % bitsPerValue ≤ bitsPerValue := (Nat.mod_lt _ (by decide)).le
    rw [if_pos hragged, kernighanCount_eq _ _ (lt_of_le_of_lt Nat.and_le_left hentry),
      bitCount_cut _ hn, countP_testBit mask e hn, hrows]
  · have hrows : min (e * bitsPerValue + bitsPerValue) count - e * bitsPerValue =
        bitsPerValue := by
      rw [not_and_or, not_not] at hragged
      simp only [entryCount, bitsPerValue] at *
      omega
    rw [if_neg hragged, hrows]
    split_ifs with hall
    · have hcount : (List.range' (e * bitsPerValue) bitsPerValue).countP mask =
          (List.range' (e * bitsPerValue) bitsPerValue).length := by
        rw [countP_range', List.length_range', List.countP_eq_length.2, List.length_range]
        exact fun k hk => allValid_iff.1 hall k (List.mem_range.1 hk)
      rw [hcount, List.length_range']
    · rw [kernighanCount_eq _ _ hentry, bitCount, countP_testBit mask e le_rfl]

theorem countValid_eq (mask : Nat → Bool) (count : Nat) :
    countValid mask count = (List.range count).countP mask := by
  have hfold : ∀ n ≤ entryCount count,
      (List.range n).foldl (countEntry mask count) 0 =
        ((List.range n).flatMap (entryRows count)).countP mask := by
    intro n
    induction n with
    | zero => intro _; rfl
    | succ n ih =>
        intro hn
        rw [List.range_succ, List.foldl_append, ih (by omega), List.foldl_cons, List.foldl_nil,
          countEntry_eq mask _ hn, List.flatMap_append, List.countP_append,
          List.flatMap_singleton]
  rw [countValid, hfold _ le_rfl, flatMap_entryRows]

end ValidityMask

end MiniDuck
