import Mathlib

/-!
# Bytes as lists of bits

The bits of a list of bytes, the highest bit of each byte first. A bit is
written by changing its byte (`bits_setBit`), equal bits are equal bytes
(`bits_injective`), and bytewise operations are bitwise ones. As numbers,
bytes in big-endian order have the value of their bits (`ofBits_bits`).
-/

namespace MiniDuck

abbrev Byte := BitVec 8

namespace ByteBits

def byteBits (b : Byte) : List Bool := (List.range 8).map b.getMsbD

def bits (bytes : List Byte) : List Bool := bytes.flatMap byteBits

@[simp] theorem length_byteBits (b : Byte) : (byteBits b).length = 8 := by simp [byteBits]

@[simp] theorem bits_nil : bits [] = [] := rfl

@[simp] theorem bits_cons (b : Byte) (bytes : List Byte) :
    bits (b :: bytes) = byteBits b ++ bits bytes := by
  simp [bits]

@[simp] theorem length_bits (bytes : List Byte) : (bits bytes).length = 8 * bytes.length := by
  induction bytes with
  | nil => rfl
  | cons b bytes ih =>
      rw [bits_cons, List.length_append, length_byteBits, ih, List.length_cons]
      omega

theorem getElem_byteBits {b : Byte} {i : Nat} (h : i < (byteBits b).length) :
    (byteBits b)[i] = b.getMsbD i := by
  simp [byteBits]

theorem byteBits_injective : Function.Injective byteBits := by
  intro b c h
  refine BitVec.eq_of_getMsbD_eq fun i hi => ?_
  have hb : i < (byteBits b).length := by rwa [length_byteBits]
  have hc : i < (byteBits c).length := by rwa [length_byteBits]
  rw [← getElem_byteBits hb, ← getElem_byteBits hc]
  simp only [h]

theorem bits_injective : Function.Injective bits := by
  intro xs
  induction xs with
  | nil =>
      intro ys h
      have hlength := congrArg List.length h
      rw [length_bits, length_bits] at hlength
      exact (List.eq_nil_of_length_eq_zero (by rw [List.length_nil] at hlength; omega)).symm
  | cons x xs ih =>
      intro ys h
      cases ys with
      | nil =>
          have hlength := congrArg List.length h
          simp at hlength
      | cons y ys =>
          rw [bits_cons, bits_cons] at h
          obtain ⟨hx, hxs⟩ := List.append_inj h (by simp)
          rw [byteBits_injective hx, ih hxs]

theorem getElem_bits :
    ∀ {bytes : List Byte} {i : Nat} (h : i < (bits bytes).length),
      (bits bytes)[i] = (bytes.getD (i / 8) 0).getMsbD (i % 8)
  | [], i, h => absurd h (Nat.not_lt_zero _)
  | b :: bytes, i, h => by
      simp only [bits_cons]
      by_cases hi : i < 8
      · rw [List.getElem_append_left (by rwa [length_byteBits]), getElem_byteBits,
          Nat.div_eq_of_lt hi, Nat.mod_eq_of_lt hi, List.getD_cons_zero]
      · have hdiv : i / 8 = (i - 8) / 8 + 1 := by omega
        have hmod : i % 8 = (i - 8) % 8 := by omega
        rw [List.getElem_append_right (by rw [length_byteBits]; omega)]
        simp only [length_byteBits]
        rw [getElem_bits, hdiv, hmod, List.getD_cons_succ]

/-! ## Writing a bit -/

def bitMask (j : Nat) : Byte := 1#8 <<< (7 - j)

def setByteBit (b : Byte) (j : Nat) (v : Bool) : Byte :=
  if v then b ||| bitMask j else b &&& ~~~bitMask j

theorem getMsbD_bitMask {j k : Nat} (hj : j < 8) (hk : k < 8) :
    (bitMask j).getMsbD k = decide (k = j) := by
  rw [bitMask, BitVec.getMsbD_eq_getLsbD, BitVec.getLsbD_shiftLeft, BitVec.getLsbD_one]
  rw [Bool.eq_iff_iff]
  simp only [Bool.and_eq_true, decide_eq_true_eq, Bool.not_eq_true', decide_eq_false_iff_not]
  omega

theorem getMsbD_setByteBit (b : Byte) {j k : Nat} (v : Bool) (hj : j < 8) (hk : k < 8) :
    (setByteBit b j v).getMsbD k = if k = j then v else b.getMsbD k := by
  cases v with
  | true =>
      rw [setByteBit, if_pos rfl, BitVec.getMsbD_or, getMsbD_bitMask hj hk]
      by_cases h : k = j
      · simp [h]
      · simp [h]
  | false =>
      rw [setByteBit, if_neg (by decide), BitVec.getMsbD_and, BitVec.getMsbD_not,
        getMsbD_bitMask hj hk]
      by_cases h : k = j
      · simp [h]
      · simp [h, hk]

theorem byteBits_setByteBit (b : Byte) {j : Nat} (v : Bool) (hj : j < 8) :
    byteBits (setByteBit b j v) = (byteBits b).set j v := by
  refine List.ext_getElem (by simp) fun k hk _ => ?_
  rw [length_byteBits] at hk
  rw [getElem_byteBits, List.getElem_set, getElem_byteBits, getMsbD_setByteBit b v hj hk]
  simp only [eq_comm]

/-- Changes bit `n`. -/
def setBit (bytes : List Byte) (n : Nat) (v : Bool) : List Byte :=
  bytes.modify (n / 8) fun b => setByteBit b (n % 8) v

@[simp] theorem length_setBit (bytes : List Byte) (n : Nat) (v : Bool) :
    (setBit bytes n v).length = bytes.length := by simp [setBit]

theorem bits_setBit : ∀ (bytes : List Byte) (n : Nat) (v : Bool),
    bits (setBit bytes n v) = (bits bytes).set n v
  | [], n, v => by simp [setBit]
  | b :: bytes, n, v => by
      by_cases hn : n < 8
      · rw [setBit, Nat.div_eq_of_lt hn, Nat.mod_eq_of_lt hn, List.modify_zero_cons, bits_cons,
          bits_cons, byteBits_setByteBit b v hn, List.set_append_left _ _ (by simpa using hn)]
      · have hdiv : n / 8 = (n - 8) / 8 + 1 := by omega
        have hmod : n % 8 = (n - 8) % 8 := by omega
        rw [setBit, hdiv, hmod, List.modify_succ_cons, bits_cons, bits_cons,
          List.set_append_right _ _ (by simpa using hn), length_byteBits,
          ← bits_setBit bytes (n - 8) v, setBit]

/-! ## Bytewise operations -/

theorem bits_map {f : Byte → Byte} {g : Bool → Bool}
    (h : ∀ b k, k < 8 → (f b).getMsbD k = g (b.getMsbD k)) (bytes : List Byte) :
    bits (bytes.map f) = (bits bytes).map g := by
  induction bytes with
  | nil => rfl
  | cons b bytes ih =>
      have hb : byteBits (f b) = (byteBits b).map g := by
        simp only [byteBits, List.map_map]
        exact List.map_congr_left fun k hk => h b k (List.mem_range.mp hk)
      rw [List.map_cons, bits_cons, bits_cons, List.map_append, ih, hb]

theorem bits_zipWith {f : Byte → Byte → Byte} {g : Bool → Bool → Bool}
    (h : ∀ a b k, k < 8 → (f a b).getMsbD k = g (a.getMsbD k) (b.getMsbD k)) :
    ∀ {xs ys : List Byte}, xs.length = ys.length →
      bits (List.zipWith f xs ys) = List.zipWith g (bits xs) (bits ys)
  | [], [], _ => rfl
  | x :: xs, y :: ys, hlength => by
      have hb : byteBits (f x y) = List.zipWith g (byteBits x) (byteBits y) := by
        refine List.ext_getElem (by simp) fun k hk _ => ?_
        rw [length_byteBits] at hk
        rw [getElem_byteBits, List.getElem_zipWith, getElem_byteBits, getElem_byteBits,
          h x y k hk]
      rw [List.zipWith_cons_cons, bits_cons, bits_cons, bits_cons,
        List.zipWith_append (by simp), bits_zipWith h (by simpa using hlength), hb]

def shiftIn (b : Byte) (v : Bool) : Byte := if v then b <<< 1 ||| 1 else b <<< 1

theorem getMsbD_shiftIn (b : Byte) (v : Bool) {k : Nat} (hk : k < 8) :
    (shiftIn b v).getMsbD k = if k = 7 then v else b.getMsbD (k + 1) := by
  have hone : (1 : Byte).getMsbD k = decide (k = 7) := by
    interval_cases k <;> rfl
  have hlast : b.getMsbD 8 = false := BitVec.getMsbD_of_ge b 8 le_rfl
  cases v with
  | true =>
      rw [shiftIn, if_pos rfl, BitVec.getMsbD_or, BitVec.getMsbD_shiftLeft, hone]
      split_ifs with h
      · simp [h]
      · simp [h]
  | false =>
      rw [shiftIn, if_neg (by decide), BitVec.getMsbD_shiftLeft]
      split_ifs with h
      · rw [h, hlast]
      · rw [Nat.add_comm]

theorem byteBits_shiftIn (b : Byte) (v : Bool) :
    byteBits (shiftIn b v) = (byteBits b).drop 1 ++ [v] := by
  refine List.ext_getElem (by simp) fun k hk _ => ?_
  rw [length_byteBits] at hk
  rw [getElem_byteBits, getMsbD_shiftIn b v hk]
  split_ifs with h
  · subst h
    simp
  · rw [List.getElem_append_left (by simp; omega), List.getElem_drop, getElem_byteBits,
      Nat.add_comm]

/-! ## Numbers -/

def ofBits (l : List Bool) : Nat := l.foldl (fun n b => 2 * n + b.toNat) 0

def ofBytes (bytes : List Byte) : Nat := bytes.foldl (fun n b => 256 * n + b.toNat) 0

theorem ofBytes_cons (b : Byte) (bytes : List Byte) :
    ofBytes (b :: bytes) = b.toNat * 256 ^ bytes.length + ofBytes bytes := by
  have hfold : ∀ (bytes : List Byte) (n : Nat),
      bytes.foldl (fun n b => 256 * n + b.toNat) n = n * 256 ^ bytes.length + ofBytes bytes := by
    intro bytes
    induction bytes with
    | nil => simp [ofBytes]
    | cons b bytes ih =>
        intro n
        have hcons : ofBytes (b :: bytes) = (256 * 0 + b.toNat) * 256 ^ bytes.length +
            ofBytes bytes := ih (256 * 0 + b.toNat)
        rw [List.foldl_cons, ih, hcons, List.length_cons, pow_succ]
        ring
  calc ofBytes (b :: bytes) = (256 * 0 + b.toNat) * 256 ^ bytes.length + ofBytes bytes :=
        hfold bytes (256 * 0 + b.toNat)
    _ = b.toNat * 256 ^ bytes.length + ofBytes bytes := by rw [Nat.mul_zero, Nat.zero_add]

theorem ofBytes_lt (bytes : List Byte) : ofBytes bytes < 256 ^ bytes.length := by
  induction bytes with
  | nil => exact Nat.one_pos
  | cons b bytes ih =>
      have hb : b.toNat + 1 ≤ 256 := b.isLt
      have hle := Nat.mul_le_mul_right (256 ^ bytes.length) hb
      rw [ofBytes_cons, List.length_cons, pow_succ]
      linarith

theorem foldl_byteBits (b : Byte) (n : Nat) :
    (byteBits b).foldl (fun n b => 2 * n + b.toNat) n = 256 * n + b.toNat := by
  have hlt := b.isLt
  have hbit : ∀ k, k < 8 → (b.getMsbD k).toNat = b.toNat / 2 ^ (7 - k) % 2 := by
    intro k hk
    rw [BitVec.getMsbD_eq_getLsbD, decide_eq_true hk, Bool.true_and, BitVec.getLsbD,
      Nat.toNat_testBit, show 8 - 1 - k = 7 - k by omega]
  simp only [byteBits, List.range, List.range.loop, List.map_cons, List.map_nil,
    List.foldl_cons, List.foldl_nil]
  rw [hbit 0 (by decide), hbit 1 (by decide), hbit 2 (by decide), hbit 3 (by decide),
    hbit 4 (by decide), hbit 5 (by decide), hbit 6 (by decide), hbit 7 (by decide)]
  omega

theorem ofBits_bits (bytes : List Byte) : ofBits (bits bytes) = ofBytes bytes := by
  have hfold : ∀ n, (bits bytes).foldl (fun n b => 2 * n + b.toNat) n =
      bytes.foldl (fun n b => 256 * n + b.toNat) n := by
    induction bytes with
    | nil => exact fun _ => rfl
    | cons b bytes ih =>
        intro n
        rw [bits_cons, List.foldl_append, foldl_byteBits, ih, List.foldl_cons]
  exact hfold 0

theorem ofBits_replicate_append (k : Nat) (l : List Bool) :
    ofBits (List.replicate k false ++ l) = ofBits l := by
  induction k with
  | zero => rfl
  | succ k ih => exact ih

end ByteBits

end MiniDuck
