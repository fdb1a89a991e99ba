import MiniDuck.ByteBits
import MiniDuck.ByteMemory

/-!
# The bits of a memory

The bits of a byte memory from an address on, the lowest of each byte
first, and its 64-bit words in little-endian order. A word has the bits
of its bytes (`getLsbD_loadWord`), and storing one changes these bits and
no others (`bit_storeWord`). Clearing and setting single bits through the
words, as code that casts a buffer to 64-bit entries does, is clearing
and setting them in the memory (`bit_clearBit`, `bit_setBit`).
-/

namespace MiniDuck

namespace Memory

variable (m : Memory Byte) (base : Nat)

/-- Bit `i` from the address on. -/
def bit (i : Nat) : Bool := (m (base + i / 8)).getLsbD (i % 8)

/-- Entry `e` of the words from the address on. -/
def loadWord (e : Nat) : BitVec 64 :=
  BitVec.ofFnLE fun k : Fin 64 => (m (base + 8 * e + k / 8)).getLsbD (k % 8)

def storeWord (e : Nat) (word : BitVec 64) : Memory Byte := fun a =>
  if base + 8 * e ≤ a ∧ a < base + 8 * e + 8 then word.extractLsb' (8 * (a - (base + 8 * e))) 8
  else m a

/-- Clears bit `i` in its word. -/
def clearBit (i : Nat) : Memory Byte :=
  m.storeWord base (i / 64) (m.loadWord base (i / 64) &&& ~~~(1#64 <<< (i % 64)))

/-- Sets bit `i` in its word. -/
def setBit (i : Nat) : Memory Byte :=
  m.storeWord base (i / 64) (m.loadWord base (i / 64) ||| 1#64 <<< (i % 64))

/-- `memset` -/
def fill (pos n : Nat) (value : Byte) : Memory Byte := fun a =>
  if pos ≤ a ∧ a < pos + n then value else m a

variable {m base}

theorem getLsbD_loadWord {e k : Nat} (hk : k < 64) :
    (m.loadWord base e).getLsbD k = m.bit base (64 * e + k) := by
  have haddress : base + 8 * e + k / 8 = base + (64 * e + k) / 8 := by omega
  have hbit : k % 8 = (64 * e + k) % 8 := by omega
  rw [loadWord, BitVec.getLsbD_eq_getElem hk, BitVec.getElem_ofFnLE, bit, ← haddress, ← hbit]

theorem bit_storeWord {e : Nat} {word : BitVec 64} {i : Nat} :
    (m.storeWord base e word).bit base i =
      if i / 64 = e then word.getLsbD (i % 64) else m.bit base i := by
  have hinside : (base + 8 * e ≤ base + i / 8 ∧ base + i / 8 < base + 8 * e + 8) ↔ i / 64 = e := by
    omega
  rw [bit, storeWord]
  by_cases he : i / 64 = e
  · have hposition : 8 * (base + i / 8 - (base + 8 * e)) + i % 8 = i % 64 := by omega
    have hlt : i % 8 < 8 := Nat.mod_lt i (by decide)
    rw [if_pos (hinside.mpr he), if_pos he, BitVec.getLsbD_extractLsb', hposition,
      decide_eq_true hlt, Bool.true_and]
  · rw [if_neg fun h => he (hinside.mp h), if_neg he, bit]

theorem getLsbD_one_shiftLeft {i k : Nat} (hk : k < 64) :
    (1#64 <<< i).getLsbD k = decide (k = i) := by
  rw [BitVec.getLsbD_shiftLeft, BitVec.getLsbD_one]
  by_cases hki : k = i
  · simp [hki, show i < 64 from hki ▸ hk]
  · by_cases hlt : k < i
    · simp [hlt, hki]
    · have hne : k - i ≠ 0 := by omega
      simp [hlt, hki, hne]

theorem bit_clearBit {i j : Nat} :
    (m.clearBit base i).bit base j = (m.bit base j && decide (j ≠ i)) := by
  rw [clearBit, bit_storeWord]
  split
  · rename_i hword
    have hlt : j % 64 < 64 := Nat.mod_lt j (by decide)
    have hposition : 64 * (i / 64) + j % 64 = j := by omega
    have hsame : j % 64 = i % 64 ↔ j = i := by omega
    rw [BitVec.getLsbD_and, BitVec.getLsbD_not, getLsbD_one_shiftLeft hlt, getLsbD_loadWord hlt,
      hposition, decide_eq_true hlt, Bool.true_and, decide_eq_decide.mpr hsame, decide_not]
  · rename_i hword
    have hne : j ≠ i := fun h => hword (by rw [h])
    rw [decide_eq_true hne, Bool.and_true]

theorem bit_setBit {i j : Nat} :
    (m.setBit base i).bit base j = (m.bit base j || decide (j = i)) := by
  rw [setBit, bit_storeWord]
  split
  · rename_i hword
    have hlt : j % 64 < 64 := Nat.mod_lt j (by decide)
    have hposition : 64 * (i / 64) + j % 64 = j := by omega
    have hsame : j % 64 = i % 64 ↔ j = i := by omega
    rw [BitVec.getLsbD_or, getLsbD_one_shiftLeft hlt, getLsbD_loadWord hlt, hposition,
      decide_eq_decide.mpr hsame]
  · rename_i hword
    have hne : j ≠ i := fun h => hword (by rw [h])
    rw [decide_eq_false hne, Bool.or_false]

theorem bit_foldl_setBit {rows : List Nat} {j : Nat} :
    (rows.foldl (fun m i => m.setBit base i) m).bit base j =
      (m.bit base j || decide (j ∈ rows)) := by
  induction rows generalizing m with
  | nil => rw [List.foldl_nil, decide_eq_false List.not_mem_nil, Bool.or_false]
  | cons i rows ih =>
      rw [List.foldl_cons, ih, bit_setBit, Bool.or_assoc, ← Bool.decide_or,
        decide_eq_decide.mpr List.mem_cons.symm]

theorem bit_fill {start n i : Nat} :
    (m.fill (base + start) n (BitVec.allOnes 8)).bit base i =
      if start ≤ i / 8 ∧ i / 8 < start + n then true else m.bit base i := by
  have hinside : (base + start ≤ base + i / 8 ∧ base + i / 8 < base + start + n) ↔
      start ≤ i / 8 ∧ i / 8 < start + n := by omega
  have hlt : i % 8 < 8 := Nat.mod_lt i (by decide)
  rw [bit, fill]
  by_cases h : start ≤ i / 8 ∧ i / 8 < start + n
  · rw [if_pos (hinside.mpr h), if_pos h, BitVec.getLsbD_allOnes, decide_eq_true hlt]
  · rw [if_neg fun h' => h (hinside.mp h'), if_neg h, bit]

theorem loadWord_shift (m : Memory Byte) (base e : Nat) :
    m.loadWord (base + 8 * e) 0 = m.loadWord base e := by
  rw [loadWord, loadWord, Nat.mul_zero, Nat.add_zero]

end Memory

end MiniDuck
