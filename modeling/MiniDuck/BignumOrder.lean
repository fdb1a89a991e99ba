import MiniDuck.BignumEncoding

/-!
# The order of BIGNUM values

Bytes of equal number compare like the numbers they stand for
(`lt_iff_ofBytes`), and so do headers and data. The header counts the
data bytes in 23 bits: below 2^23 bytes, encodings compare like the
integers (`encoding_lt`), and from there on the count is wrong
(`headerLength_encoding`).
-/

namespace MiniDuck

namespace Bignum

open ByteBits Numeral

/-! ## Bytes as numbers -/

theorem lt_iff_ofBytes : ∀ {xs ys : List Byte}, xs.length = ys.length →
    (xs < ys ↔ ofBytes xs < ofBytes ys)
  | [], [], _ => by simp
  | x :: xs, y :: ys, h => by
      have hlength : xs.length = ys.length := by simpa using h
      have hx := ofBytes_lt xs
      have hy := ofBytes_lt ys
      rw [List.cons_lt_cons_iff, lt_iff_ofBytes hlength, ofBytes_cons, ofBytes_cons, ← hlength,
        BitVec.lt_def, BitVec.toNat_inj.symm]
      rw [← hlength] at hy
      constructor
      · rintro (hlt | ⟨heq, hlt⟩)
        · have hle := Nat.mul_le_mul_right (256 ^ xs.length) (Nat.succ_le_of_lt hlt)
          rw [Nat.succ_mul] at hle
          omega
        · rw [heq]
          omega
      · intro hlt
        obtain hless | heq | hgreater := Nat.lt_trichotomy x.toNat y.toNat
        · exact Or.inl hless
        · rw [heq] at hlt
          exact Or.inr ⟨heq, by omega⟩
        · have hle := Nat.mul_le_mul_right (256 ^ xs.length) (Nat.succ_le_of_lt hgreater)
          rw [Nat.succ_mul] at hle
          omega

theorem append_lt_append {α : Type} [LT α] {xs xs' ys ys' : List α}
    (hlength : xs.length = xs'.length) (h : xs < xs' ∨ xs = xs' ∧ ys < ys') :
    xs ++ ys < xs' ++ ys' := by
  induction xs generalizing xs' with
  | nil =>
      have hnil : xs' = [] := List.eq_nil_of_length_eq_zero hlength.symm
      subst hnil
      obtain hlt | ⟨-, hlt⟩ := h
      · exact absurd hlt (List.not_lt_nil [])
      · exact hlt
  | cons x xs ih =>
      cases xs' with
      | nil => exact absurd hlength (by simp)
      | cons x' xs' =>
          rw [List.cons_append, List.cons_append, List.cons_lt_cons_iff]
          rw [List.length_cons, List.length_cons, Nat.add_right_cancel_iff] at hlength
          obtain hlt | ⟨heq, hlt⟩ := h
          · obtain hx | ⟨hx, hxs⟩ := List.cons_lt_cons_iff.mp hlt
            · exact Or.inl hx
            · exact Or.inr ⟨hx, ih hlength (Or.inl hxs)⟩
          · obtain ⟨hx, hxs⟩ := List.cons.inj heq
            exact Or.inr ⟨hx, ih hlength (Or.inr ⟨hxs, hlt⟩)⟩

theorem ofBytes_complement (bytes : List Byte) :
    ofBytes (bytes.map fun byte => ~~~byte) + ofBytes bytes + 1 = 256 ^ bytes.length := by
  induction bytes with
  | nil => rfl
  | cons b bytes ih =>
      have hb := b.isLt
      rw [List.map_cons, ofBytes_cons, ofBytes_cons, List.length_map, List.length_cons, pow_succ,
        BitVec.toNat_not]
      calc (2 ^ 8 - 1 - b.toNat) * 256 ^ bytes.length + ofBytes (bytes.map fun byte => ~~~byte) +
            (b.toNat * 256 ^ bytes.length + ofBytes bytes) + 1
          = (2 ^ 8 - 1 - b.toNat + b.toNat) * 256 ^ bytes.length +
            (ofBytes (bytes.map fun byte => ~~~byte) + ofBytes bytes + 1) := by ring
        _ = 256 ^ bytes.length * 256 := by
            rw [ih, Nat.sub_add_cancel (by omega)]
            ring

/-! ## The data -/

theorem ofBytes_bigEndian (n : Nat) : ofBytes (bigEndian n) = n := by
  have hfold : ∀ l : List Nat, (∀ d ∈ l, d < 256) →
      ofBytes (l.reverse.map (BitVec.ofNat 8)) = Nat.ofDigits 256 l := by
    intro l
    induction l with
    | nil => exact fun _ => rfl
    | cons d l ih =>
        intro h
        have hd : d < 256 := h d List.mem_cons_self
        rw [List.reverse_cons, List.map_append, ofBytes, List.foldl_append, Nat.ofDigits_cons,
          ← ih fun e he => h e (List.mem_cons_of_mem d he)]
        simp only [List.map_cons, List.map_nil, List.foldl_cons, List.foldl_nil,
          BitVec.toNat_ofNat]
        rw [Nat.mod_eq_of_lt hd, Nat.add_comm]
        rfl
  rw [bigEndian, hfold _ fun d hd => Nat.digits_lt_base (by decide) hd, Nat.ofDigits_digits]

theorem ofBytes_dataBytes (n : Nat) : ofBytes (dataBytes n) = n := by
  rw [dataBytes]
  split_ifs with h
  · rw [h]
    rfl
  · exact ofBytes_bigEndian n

theorem length_dataBytes_le {n k : Nat} (hk : 0 < k) :
    (dataBytes n).length ≤ k ↔ n < 256 ^ k := by
  rw [dataBytes]
  split_ifs with h
  · rw [h]
    exact iff_of_true hk (Nat.pow_pos (by decide))
  · rw [bigEndian, List.length_map, List.length_reverse,
      Nat.digits_length_le_iff (by decide)]

theorem length_dataBytes_pos (n : Nat) : 0 < (dataBytes n).length := by
  rw [dataBytes]
  split_ifs with h
  · exact Nat.one_pos
  · rw [bigEndian, List.length_map, List.length_reverse]
    exact List.length_pos_of_ne_nil (Nat.digits_ne_nil_iff_ne_zero.mpr h)

theorem length_dataBytes_mono {m n : Nat} (h : m ≤ n) :
    (dataBytes m).length ≤ (dataBytes n).length := by
  rw [length_dataBytes_le (length_dataBytes_pos n)]
  have hlt := ofBytes_lt (dataBytes n)
  rw [ofBytes_dataBytes] at hlt
  omega

/-! ## The header -/

theorem setHeader_eq (n : Nat) (isNegative : Bool) :
    ∃ b₀ b₁ b₂ : Byte, setHeader n isNegative = [b₀, b₁, b₂] ∧
      b₀.toNat * 65536 + b₁.toNat * 256 + b₂.toNat =
        if isNegative then 2 ^ 23 - 1 - n % 2 ^ 23 else 2 ^ 23 + n % 2 ^ 23 := by
  refine ⟨_, _, _, rfl, ?_⟩
  have hbytes : ∀ h : BitVec 32,
      ((h >>> 16).setWidth 8 : Byte).toNat * 65536 +
        (((h >>> 8) &&& 0xFF#32).setWidth 8 : Byte).toNat * 256 +
          ((h &&& 0xFF#32).setWidth 8 : Byte).toNat = h.toNat % 2 ^ 24 := by
    intro h
    simp only [BitVec.toNat_setWidth, BitVec.toNat_ushiftRight, BitVec.toNat_and,
      BitVec.toNat_ofNat, Nat.shiftRight_eq_div_pow]
    rw [show 255 % 2 ^ 32 = 2 ^ 8 - 1 by norm_num, Nat.and_two_pow_sub_one_eq_mod,
      Nat.and_two_pow_sub_one_eq_mod]
    omega
  have hor : (BitVec.ofNat 32 n ||| 0x00800000#32).toNat % 2 ^ 24 = 2 ^ 23 + n % 2 ^ 23 := by
    have hlow : n % 2 ^ 23 < 2 ^ 23 := Nat.mod_lt _ (by decide)
    have htop := Nat.two_pow_add_eq_or_of_lt hlow 1
    rw [BitVec.toNat_or, BitVec.toNat_ofNat, BitVec.toNat_ofNat, Nat.or_mod_two_pow,
      show 8388608 % 2 ^ 32 % 2 ^ 24 = 2 ^ 23 * 1 by norm_num,
      show n % 2 ^ 32 % 2 ^ 24 = n % 2 ^ 24 by omega]
    have hsplit := Nat.two_pow_add_eq_or_of_lt hlow (n % 2 ^ 24 / 2 ^ 23)
    rw [show 2 ^ 23 * (n % 2 ^ 24 / 2 ^ 23) + n % 2 ^ 23 = n % 2 ^ 24 by omega] at hsplit
    rw [hsplit]
    obtain hzero | hone : n % 2 ^ 24 / 2 ^ 23 = 0 ∨ n % 2 ^ 24 / 2 ^ 23 = 1 := by omega
    · rw [hzero, Nat.mul_zero, Nat.zero_or, Nat.or_comm, ← htop, Nat.mul_one]
    · rw [hone, Nat.or_comm, ← Nat.or_assoc, Nat.or_self, ← htop, Nat.mul_one]
  rw [hbytes]
  cases isNegative with
  | false => exact hor
  | true =>
      have hlt := (BitVec.ofNat 32 n ||| 0x00800000#32).isLt
      simp only [if_true, BitVec.toNat_not]
      omega

theorem length_setHeader (n : Nat) (isNegative : Bool) : (setHeader n isNegative).length = 3 := rfl

theorem ofBytes_setHeader (n : Nat) (isNegative : Bool) : ofBytes (setHeader n isNegative) =
    if isNegative then 2 ^ 23 - 1 - n % 2 ^ 23 else 2 ^ 23 + n % 2 ^ 23 := by
  obtain ⟨b₀, b₁, b₂, hheader, hvalue⟩ := setHeader_eq n isNegative
  rw [hheader, ofBytes_cons, ofBytes_cons, ofBytes_cons, ← hvalue]
  simp [ofBytes]
  ring

theorem top_bit : (∀ b : Byte, 128 ≤ b.toNat → ¬ b &&& 0x80 = 0 ∧
      (b &&& 0x7F).toNat = b.toNat - 128) ∧
    ∀ b : Byte, b.toNat < 128 → b &&& 0x80 = 0 ∧ (~~~b &&& 0x7F).toNat = 127 - b.toNat := by
  decide +kernel

/-- The count in a header is that of the bytes modulo 2^23. -/
theorem headerLength_setHeader (n : Nat) (isNegative : Bool) (data : List Byte) :
    headerLength (setHeader n isNegative ++ data) = n % 2 ^ 23 := by
  have hjoin : ∀ a b c : Nat, b < 256 → c < 256 →
      a <<< 16 ||| b <<< 8 ||| c = a * 65536 + b * 256 + c := by
    intro a b c hb hc
    have hlow := Nat.shiftLeft_add_eq_or_of_lt (i := 8) hc b
    have hlt : b <<< 8 ||| c < 2 ^ 16 := by
      rw [← hlow, Nat.shiftLeft_eq]
      omega
    rw [Nat.or_assoc, ← Nat.shiftLeft_add_eq_or_of_lt hlt, ← hlow, Nat.shiftLeft_eq,
      Nat.shiftLeft_eq]
    omega
  obtain ⟨b₀, b₁, b₂, hheader, hvalue⟩ := setHeader_eq n isNegative
  have h₁ := b₁.isLt
  have h₂ := b₂.isLt
  have hmod : n % 2 ^ 23 < 2 ^ 23 := Nat.mod_lt _ (by decide)
  rw [hheader, headerLength]
  simp only [List.cons_append, List.getD_cons_zero, List.getD_cons_succ]
  cases isNegative with
  | false =>
      rw [if_neg Bool.false_ne_true] at hvalue
      have hlow : 128 ≤ b₀.toNat := by omega
      obtain ⟨hset, hclear⟩ := top_bit.1 b₀ hlow
      rw [if_neg hset, if_neg hset, if_neg hset, hjoin _ _ _ h₁ h₂, hclear]
      obtain ⟨k, hk⟩ := Nat.exists_eq_add_of_le hlow
      rw [hk, Nat.add_sub_cancel_left]
      rw [hk] at hvalue
      linarith
  | true =>
      rw [if_pos rfl] at hvalue
      have hlow : b₀.toNat ≤ 127 := by omega
      obtain ⟨hset, hclear⟩ := top_bit.2 b₀ (Nat.lt_succ_of_le hlow)
      rw [if_pos hset, if_pos hset, if_pos hset, hclear, BitVec.toNat_not, BitVec.toNat_not,
        hjoin _ _ _ (by omega) (by omega)]
      have htotal : b₀.toNat * 65536 + b₁.toNat * 256 + b₂.toNat + n % 2 ^ 23 + 1 = 2 ^ 23 := by
        rw [hvalue]
        clear hvalue
        omega
      have hx : 127 - b₀.toNat + b₀.toNat = 127 := Nat.sub_add_cancel hlow
      have hy : 2 ^ 8 - 1 - b₁.toNat + b₁.toNat = 255 := by omega
      have hz : 2 ^ 8 - 1 - b₂.toNat + b₂.toNat = 255 := by omega
      linarith

/-! ## Encodings -/

def dataLength (z : ℤ) : Nat := (dataBytes z.natAbs).length

theorem length_encoding (z : ℤ) : (encoding z).length = 3 + dataLength z := by
  rw [encoding, List.length_append, length_setHeader, dataLength]
  split_ifs
  · rw [List.length_map]
  · rfl

theorem headerLength_encoding (z : ℤ) : headerLength (encoding z) = dataLength z % 2 ^ 23 :=
  headerLength_setHeader _ _ _

theorem dataLength_lt_iff (z : ℤ) : dataLength z < 2 ^ 23 ↔ z.natAbs < 256 ^ (2 ^ 23 - 1) := by
  rw [dataLength, ← length_dataBytes_le (Nat.sub_pos_of_lt (Nat.one_lt_two_pow (by decide)))]
  exact Nat.lt_iff_le_pred (Nat.two_pow_pos 23)

theorem encoding_lt {z w : ℤ} (hz : dataLength z < 2 ^ 23) (hw : dataLength w < 2 ^ 23)
    (h : z < w) : encoding z < encoding w := by
  have hheader : ∀ m n (a b : Bool), ofBytes (setHeader m a) < ofBytes (setHeader n b) →
      setHeader m a < setHeader n b := fun m n a b =>
    (lt_iff_ofBytes ((length_setHeader m a).trans (length_setHeader n b).symm)).mpr
  have hdata : ∀ n, ofBytes (dataBytes n) = n := ofBytes_dataBytes
  rw [dataLength] at hz hw
  refine append_lt_append rfl ?_
  by_cases hz' : z < 0
  · by_cases hw' : w < 0
    · -- of two negative numbers the one with more bytes is less
      have hmono : (dataBytes w.natAbs).length ≤ (dataBytes z.natAbs).length :=
        length_dataBytes_mono (by omega)
      rw [decide_eq_true hz', decide_eq_true hw', if_pos hz', if_pos hw']
      obtain hlt | heq := Nat.lt_or_eq_of_le hmono
      · refine Or.inl (hheader _ _ _ _ ?_)
        rw [ofBytes_setHeader, ofBytes_setHeader, if_pos rfl, if_pos rfl, Nat.mod_eq_of_lt hz,
          Nat.mod_eq_of_lt hw]
        omega
      · refine Or.inr ⟨by rw [heq], ?_⟩
        rw [lt_iff_ofBytes (by rw [List.length_map, List.length_map, heq])]
        have hzc := ofBytes_complement (dataBytes z.natAbs)
        have hwc := ofBytes_complement (dataBytes w.natAbs)
        rw [hdata] at hzc hwc
        rw [heq] at hwc
        omega
    · rw [decide_eq_true hz', decide_eq_false hw']
      refine Or.inl (hheader _ _ _ _ ?_)
      rw [ofBytes_setHeader, ofBytes_setHeader, if_pos rfl, if_neg Bool.false_ne_true]
      omega
  · have hw' : ¬ w < 0 := by omega
    have hmono : (dataBytes z.natAbs).length ≤ (dataBytes w.natAbs).length :=
      length_dataBytes_mono (by omega)
    rw [decide_eq_false hz', decide_eq_false hw', if_neg hz', if_neg hw']
    obtain hlt | heq := Nat.lt_or_eq_of_le hmono
    · refine Or.inl (hheader _ _ _ _ ?_)
      rw [ofBytes_setHeader, ofBytes_setHeader, if_neg Bool.false_ne_true,
        if_neg Bool.false_ne_true, Nat.mod_eq_of_lt hz, Nat.mod_eq_of_lt hw]
      omega
    · refine Or.inr ⟨by rw [heq], ?_⟩
      rw [lt_iff_ofBytes heq, hdata, hdata]
      omega

theorem encoding_lt_iff {z w : ℤ} (hz : dataLength z < 2 ^ 23) (hw : dataLength w < 2 ^ 23) :
    encoding z < encoding w ↔ z < w := by
  refine ⟨fun h => ?_, encoding_lt hz hw⟩
  by_contra hle
  obtain hgt | rfl := lt_or_eq_of_le (not_lt.mp hle)
  · exact List.lt_asymm h (encoding_lt hw hz hgt)
  · exact List.lt_irrefl _ h

theorem encoding_inj {z w : ℤ} (hz : dataLength z < 2 ^ 23) (hw : dataLength w < 2 ^ 23) :
    encoding z = encoding w ↔ z = w := by
  refine ⟨fun h => ?_, congrArg encoding⟩
  obtain hlt | heq | hgt := lt_trichotomy z w
  · have hless := encoding_lt hz hw hlt
    rw [h] at hless
    exact absurd hless (List.lt_irrefl _)
  · exact heq
  · have hless := encoding_lt hw hz hgt
    rw [h] at hless
    exact absurd hless (List.lt_irrefl _)

/-- Two BIGNUM values compare like their integers, and their headers count their bytes. -/
structure Ordered (z w : ℤ) (a b : List Byte) : Prop where
  lt_iff : a < b ↔ z < w
  eq_iff : a = b ↔ z = w
  left : headerLength a = a.length - headerSize
  right : headerLength b = b.length - headerSize

theorem headerLength_iff (z : ℤ) :
    headerLength (encoding z) = (encoding z).length - headerSize ↔ dataLength z < 2 ^ 23 := by
  rw [headerLength_encoding, length_encoding, headerSize, Nat.add_sub_cancel_left,
    Nat.mod_eq_iff_lt (by decide)]

theorem ordered_iff (z w : ℤ) :
    Ordered z w (encoding z) (encoding w) ↔ dataLength z < 2 ^ 23 ∧ dataLength w < 2 ^ 23 := by
  constructor
  · rintro ⟨-, -, hleft, hright⟩
    exact ⟨(headerLength_iff z).mp hleft, (headerLength_iff w).mp hright⟩
  · rintro ⟨hz, hw⟩
    exact ⟨encoding_lt_iff hz hw, encoding_inj hz hw, (headerLength_iff z).mpr hz,
      (headerLength_iff w).mpr hw⟩

theorem header_long {k : Nat} (hk : 8 * (2 ^ 23 - 1) ≤ 3 * k) :
    ∃ blob, varcharToBignum (49 :: List.replicate k 48) = .ok blob ∧
      headerLength blob ≠ blob.length - headerSize := by
  obtain ⟨n, hn⟩ : ∃ n : Numeral, n = ⟨none, 1 :: List.replicate k 0, none, by simp⟩ := ⟨_, rfl⟩
  have htext : n.text = 49 :: List.replicate k 48 := by
    rw [hn, Numeral.text]
    simp [signText, fractionText]
    exact ⟨rfl, Or.inr rfl⟩
  have hzero : ofDecimal (List.replicate k 0) = 0 := by
    have h := ofDecimal_replicate_append k []
    rwa [List.append_nil] at h
  have hround : roundHalfAwayFromZero n.value = ((10 ^ k : Nat) : ℤ) := by
    rw [round_value, hn, if_neg (by simp), one_mul, ofDecimal_cons, hzero, List.length_replicate]
    simp [roundsUp]
  refine ⟨_, htext ▸ varcharToBignum_text n, ?_⟩
  rw [ne_eq, headerLength_iff, dataLength_lt_iff, hround, Int.natAbs_natCast, not_lt]
  calc 256 ^ (2 ^ 23 - 1) = 2 ^ (8 * (2 ^ 23 - 1)) := by
        rw [show (256 : Nat) = 2 ^ 8 by norm_num, ← pow_mul]
    _ ≤ 2 ^ (3 * k) := Nat.pow_le_pow_right (by decide) hk
    _ = 8 ^ k := by rw [show (8 : Nat) = 2 ^ 3 by norm_num, ← pow_mul]
    _ ≤ 10 ^ k := Nat.pow_le_pow_left (by decide) k

end Bignum

open Bignum Numeral

/-- The encodings of two texts compare like their integers exactly if these take fewer than 2^23
bytes. -/
theorem bignum_order {m n : Numeral} {a b : List Byte} (ha : varcharToBignum m.text = .ok a)
    (hb : varcharToBignum n.text = .ok b) :
    Ordered (roundHalfAwayFromZero m.value) (roundHalfAwayFromZero n.value) a b ↔
      (roundHalfAwayFromZero m.value).natAbs < 256 ^ (2 ^ 23 - 1) ∧
        (roundHalfAwayFromZero n.value).natAbs < 256 ^ (2 ^ 23 - 1) := by
  rw [varcharToBignum_text] at ha hb
  rw [← Except.ok.inj ha, ← Except.ok.inj hb, ← dataLength_lt_iff, ← dataLength_lt_iff]
  exact ordered_iff _ _

theorem bignum_order_one : Ordered (-2) 1 [127, 255, 254, 253] [128, 0, 1, 1] := by
  obtain ⟨m, hm⟩ : ∃ m : Numeral, m = ⟨some true, [1], some [5], by decide⟩ := ⟨_, rfl⟩
  obtain ⟨n, hn⟩ : ∃ n : Numeral, n = ⟨none, [0, 1], none, by decide⟩ := ⟨_, rfl⟩
  have hround : roundHalfAwayFromZero m.value = -2 := by
    rw [round_value, hm]
    decide
  have hround' : roundHalfAwayFromZero n.value = 1 := by
    rw [round_value, hn]
    decide
  have ha := varcharToBignum_text m
  have hb := varcharToBignum_text n
  have hsmall : ∀ k : Nat, k < 256 → k < 256 ^ (2 ^ 23 - 1) := fun k hk =>
    Nat.lt_of_lt_of_le hk (Nat.le_self_pow (by norm_num) 256)
  have hordered := (bignum_order ha hb).mpr
  rw [hround, hround'] at hordered
  exact hordered ⟨hsmall _ (by decide), hsmall _ (by decide)⟩

/-- The header of a one followed by 23000000 zeros does not count its bytes. -/
theorem bignum_header_wraps : ∃ blob,
    varcharToBignum (49 :: List.replicate 23000000 48) = .ok blob ∧
      headerLength blob ≠ blob.length - headerSize :=
  header_long (by norm_num)

end MiniDuck
