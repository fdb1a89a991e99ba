import MiniDuck.BignumText

/-!
# The encoding of integers

The chunks of decimal digits are added up to the digits of the number in
base 2^32 (`binaryDigits_eq`), and these are written as its bytes
(`digitsBytes_eq`). So a text becomes the `encoding` of the integer that
it denotes, rounded (`varcharToBignum_text`).
-/

namespace MiniDuck

namespace Bignum

open Numeral

def bigEndian (n : Nat) : List Byte := (Nat.digits 256 n).reverse.map (BitVec.ofNat 8)

def dataBytes (n : Nat) : List Byte := if n = 0 then [0] else bigEndian n

def encoding (z : ℤ) : List Byte :=
  let data := dataBytes z.natAbs
  setHeader data.length (z < 0) ++ if z < 0 then data.map (fun byte => ~~~byte) else data

/-! ## Digits of numbers -/

theorem digits_eq {base : Nat} (hbase : 1 < base) {digits : List Nat}
    (hdigits : ∀ d ∈ digits, d < base)
    (hle : digits ≠ [] → base ^ (digits.length - 1) ≤ Nat.ofDigits base digits) :
    digits = Nat.digits base (Nat.ofDigits base digits) := by
  refine (Nat.digits_ofDigits base hbase digits hdigits fun hne hlast => ?_).symm
  have hsplit := List.dropLast_append_getLast hne
  rw [hlast] at hsplit
  have hlt := Nat.ofDigits_lt_base_pow_length hbase
    (l := digits.dropLast) fun d hd => hdigits d (List.mem_of_mem_dropLast hd)
  have hvalue : Nat.ofDigits base digits = Nat.ofDigits base digits.dropLast := by
    conv_lhs => rw [← hsplit]
    exact Nat.ofDigits_append_zero _
  have hle' := hle hne
  rw [hvalue] at hle'
  rw [List.length_dropLast] at hlt
  omega

theorem pow_length_le {base n : Nat} (hbase : 1 < base) (hn : n ≠ 0) :
    base ^ ((Nat.digits base n).length - 1) ≤ n := by
  have hle := Nat.base_pow_length_digits_le base n hbase hn
  have hpos : 0 < (Nat.digits base n).length :=
    List.length_pos_of_ne_nil (Nat.digits_ne_nil_iff_ne_zero.mpr hn)
  obtain ⟨k, hk⟩ : ∃ k, (Nat.digits base n).length = k + 1 := ⟨_, (Nat.succ_pred hpos.ne').symm⟩
  rw [hk, pow_succ, Nat.mul_comm] at hle
  rw [hk, Nat.add_sub_cancel]
  exact Nat.le_of_mul_le_mul_left hle (by omega)

/-! ## Chunks of decimal digits -/

theorem readChunk_from (digits : List (Fin 10)) : ∀ carry : Nat,
    carry * 10 ^ digits.length + ofDecimal digits < 2 ^ 32 →
    (digits.map digitChar).foldlM (fun carry c => do
      let carry ← mul32 carry 10
      add32 carry (c.toNat - 48)) carry =
        .ok (carry * 10 ^ digits.length + ofDecimal digits) := by
  induction digits with
  | nil =>
      intro carry _
      simp [ofDecimal]
      rfl
  | cons d digits ih =>
      intro carry hlt
      have heq : carry * 10 ^ (d :: digits).length + ofDecimal (d :: digits) =
          (carry * 10 + d.val) * 10 ^ digits.length + ofDecimal digits := by
        rw [ofDecimal_cons, List.length_cons, pow_succ]
        ring
      rw [heq] at hlt ⊢
      have hstep : carry * 10 + d.val < 2 ^ 32 := by
        have hpos : 0 < 10 ^ digits.length := Nat.pow_pos (by decide)
        have hle := Nat.le_mul_of_pos_right (carry * 10 + d.val) hpos
        omega
      rw [List.map_cons, List.foldlM_cons, mul32, unsigned_ok (by omega), toNat_digitChar]
      show add32 (carry * 10) d.val >>= _ = _
      rw [add32, unsigned_ok hstep]
      exact ih (carry * 10 + d.val) hlt

theorem readChunk_eq {digits : List (Fin 10)} (h : digits.length ≤ 9) :
    readChunk (digits.map digitChar) = .ok (ofDecimal digits) := by
  have hlt := ofDecimal_lt digits
  have hpow : 10 ^ digits.length ≤ 10 ^ 9 := Nat.pow_le_pow_right (by decide) h
  have hread := readChunk_from digits 0 (by rw [Nat.zero_mul, Nat.zero_add]; omega)
  rwa [Nat.zero_mul, Nat.zero_add] at hread

/-- No product overflows, and the digits and the carry make up the result. -/
theorem multiplyAdd_spec {base : Nat} (hbase : base ≤ decimalBase) (digits : List Nat) :
    ∀ carry : Nat, (∀ d ∈ digits, d < 2 ^ 32) → carry < 2 ^ 32 →
      ∃ digits' carry', multiplyAdd base digits carry = .ok (digits', carry') ∧
        digits'.length = digits.length ∧ (∀ d ∈ digits', d < 2 ^ 32) ∧ carry' < 2 ^ 32 ∧
        Nat.ofDigits (2 ^ 32) digits' + (2 ^ 32) ^ digits.length * carry' =
          base * Nat.ofDigits (2 ^ 32) digits + carry := by
  induction digits with
  | nil => exact fun carry _ hcarry => ⟨[], carry, rfl, rfl, by simp, hcarry, by simp⟩
  | cons d digits ih =>
      intro carry hdigits hcarry
      have hd : d < 2 ^ 32 := hdigits d List.mem_cons_self
      have hproduct : d * base ≤ (2 ^ 32 - 1) * decimalBase :=
        Nat.mul_le_mul (by omega) hbase
      rw [decimalBase] at hproduct
      have hhigh : (d * base + carry) >>> 32 < 2 ^ 32 := by
        rw [Nat.shiftRight_eq_div_pow]
        omega
      obtain ⟨digits', carry', hrec, hlength, hdigits', hcarry', hvalue⟩ :=
        ih ((d * base + carry) >>> 32) (fun e he => hdigits e (List.mem_cons_of_mem d he)) hhigh
      refine ⟨toDigit (d * base + carry) :: digits', carry', ?_, by simp [hlength], ?_, hcarry',
        ?_⟩
      · rw [multiplyAdd, mul64, unsigned_ok (by omega)]
        show (add64 (d * base) carry >>= _) = _
        rw [add64, unsigned_ok (by omega)]
        show (multiplyAdd base digits (toDigit ((d * base + carry) >>> 32)) >>= _) = _
        rw [toDigit_of_lt hhigh, hrec]
        rfl
      · intro e he
        obtain rfl | he := List.mem_cons.mp he
        · exact Nat.mod_lt _ (by decide)
        · exact hdigits' e he
      · have hsplit := Nat.div_add_mod (d * base + carry) (2 ^ 32)
        rw [Nat.shiftRight_eq_div_pow] at hvalue
        rw [Nat.ofDigits_cons, Nat.ofDigits_cons, List.length_cons, pow_succ, toDigit]
        calc (d * base + carry) % 2 ^ 32 + 2 ^ 32 * Nat.ofDigits (2 ^ 32) digits' +
              (2 ^ 32) ^ digits.length * 2 ^ 32 * carry'
            = (d * base + carry) % 2 ^ 32 + 2 ^ 32 * (Nat.ofDigits (2 ^ 32) digits' +
              (2 ^ 32) ^ digits.length * carry') := by ring
          _ = base * (d + 2 ^ 32 * Nat.ofDigits (2 ^ 32) digits) + carry := by
              rw [hvalue]
              linarith

theorem addChunk_eq {b : Nat} (hpos : 0 < b) (hbase : b ≤ decimalBase) (n : Nat)
    {chunk : List (Fin 10)} (hchunk : chunk.length ≤ 9) :
    addChunk b (Nat.digits (2 ^ 32) n) (chunk.map digitChar) =
      .ok (Nat.digits (2 ^ 32) (n * b + ofDecimal chunk)) := by
  have hcarry : ofDecimal chunk < 2 ^ 32 := by
    have hlt := ofDecimal_lt chunk
    have hpow : 10 ^ chunk.length ≤ 10 ^ 9 := Nat.pow_le_pow_right (by decide) hchunk
    omega
  obtain ⟨digits', carry', hmultiply, hlength, hdigits', hcarry', hvalue⟩ :=
    multiplyAdd_spec hbase (Nat.digits (2 ^ 32) n) (ofDecimal chunk)
      (fun d hd => Nat.digits_lt_base (by decide) hd) hcarry
  rw [Nat.ofDigits_digits, Nat.mul_comm b] at hvalue
  rw [addChunk, readChunk_eq hchunk]
  show (multiplyAdd b (Nat.digits (2 ^ 32) n) (ofDecimal chunk) >>= _) = _
  rw [hmultiply]
  show Except.ok (if carry' ≠ 0 then digits' ++ [carry'] else digits') = _
  rw [← hvalue]
  refine congrArg Except.ok ?_
  by_cases hzero : carry' = 0
  · rw [if_neg (not_not.mpr hzero), hzero, Nat.mul_zero, Nat.add_zero]
    refine digits_eq (by decide) hdigits' fun hne => ?_
    have hn : n ≠ 0 := by
      rintro rfl
      rw [Nat.digits_zero, List.length_nil] at hlength
      exact hne (List.eq_nil_of_length_eq_zero hlength)
    rw [hzero, Nat.mul_zero, Nat.add_zero] at hvalue
    rw [hlength, hvalue]
    calc (2 ^ 32) ^ ((Nat.digits (2 ^ 32) n).length - 1) ≤ n := pow_length_le (by decide) hn
      _ ≤ n * b := Nat.le_mul_of_pos_right n hpos
      _ ≤ n * b + ofDecimal chunk := Nat.le_add_right _ _
  · have happend : Nat.ofDigits (2 ^ 32) (digits' ++ [carry']) =
        Nat.ofDigits (2 ^ 32) digits' + (2 ^ 32) ^ (Nat.digits (2 ^ 32) n).length * carry' := by
      rw [Nat.ofDigits_append, hlength, Nat.ofDigits_singleton]
    rw [if_pos hzero, ← happend]
    refine digits_eq (by decide) ?_ fun _ => ?_
    · intro d hd
      obtain hd | hd := List.mem_append.mp hd
      · exact hdigits' d hd
      · rwa [List.mem_singleton.mp hd]
    · rw [happend, List.length_append, hlength, List.length_singleton, Nat.add_sub_cancel]
      have hle := Nat.le_mul_of_pos_right ((2 ^ 32) ^ (Nat.digits (2 ^ 32) n).length)
        (Nat.pos_of_ne_zero hzero)
      omega

theorem addChunks_eq (k : Nat) : ∀ (n : Nat) {digits : List (Fin 10)},
    digits.length = decimalShift * k →
      addChunks k (Nat.digits (2 ^ 32) n) (digits.map digitChar) =
        .ok (Nat.digits (2 ^ 32) (n * 10 ^ digits.length + ofDecimal digits)) := by
  induction k with
  | zero =>
      intro n digits hlength
      rw [List.eq_nil_of_length_eq_zero hlength, addChunks]
      simp [ofDecimal]
  | succ k ih =>
      intro n digits hlength
      rw [decimalShift] at hlength
      have htake : (digits.take 9).length = 9 := by
        rw [List.length_take]
        omega
      have hdrop : (digits.drop 9).length = decimalShift * k := by
        rw [List.length_drop, decimalShift]
        omega
      have hchunk := addChunk_eq (b := decimalBase) (by decide) le_rfl n htake.le
      rw [addChunks, decimalShift, ← List.map_take, ← List.map_drop, hchunk]
      show addChunks k _ _ = _
      rw [ih _ hdrop]
      refine congrArg (fun n => Except.ok (Nat.digits (2 ^ 32) n)) ?_
      have hall := ofDecimal_append (digits.take 9) (digits.drop 9)
      rw [List.take_append_drop] at hall
      have hpow : 10 ^ digits.length = decimalBase * 10 ^ (digits.drop 9).length := by
        rw [List.length_drop, decimalBase, show 1000000000 = 10 ^ 9 by norm_num, ← pow_add]
        congr 1
        omega
      rw [hall, hpow]
      ring

theorem chunkBase_eq : ∀ {n : Nat}, n ≤ 9 → chunkBase n = .ok (10 ^ n)
  | 0, _ => rfl
  | n + 1, h => by
      have hpow : 10 ^ (n + 1) ≤ 10 ^ 9 := Nat.pow_le_pow_right (by decide) h
      rw [pow_succ] at hpow
      rw [chunkBase, chunkBase_eq (Nat.le_of_succ_le h)]
      show mul32 (10 ^ n) 10 = _
      rw [mul32, unsigned_ok (by omega), pow_succ]

/-- The digits in base 2^32 of any number of decimal digits. -/
theorem binaryDigits_eq (digits : List (Fin 10)) :
    binaryDigits (digits.map digitChar) = .ok (Nat.digits (2 ^ 32) (ofDecimal digits)) := by
  obtain ⟨size, hsize⟩ : ∃ size,
      (if digits.length % decimalShift = 0 then decimalShift
        else digits.length % decimalShift) = size := ⟨_, rfl⟩
  have hle : size ≤ 9 := by
    rw [← hsize, decimalShift]
    split_ifs <;> omega
  rw [binaryDigits]
  simp only [List.length_map, hsize, chunkBase_eq hle]
  cases digits with
  | nil => rfl
  | cons d rest =>
      obtain ⟨digits, hdigits⟩ : ∃ digits, digits = d :: rest := ⟨_, rfl⟩
      rw [← hdigits] at hsize ⊢
      have hpos : 0 < digits.length := by
        rw [hdigits]
        exact Nat.succ_pos _
      rw [decimalShift] at hsize
      have hsize' : size ≤ digits.length := by
        rw [← hsize]
        split_ifs <;> omega
      have htake : (digits.take size).length = size := by
        rw [List.length_take]
        omega
      have hrest : (digits.drop size).length =
          decimalShift * ((digits.length - size) / decimalShift) := by
        rw [List.length_drop, decimalShift]
        split_ifs at hsize <;> omega
      have hbase : 10 ^ size ≤ decimalBase := by
        rw [decimalBase, show 1000000000 = 10 ^ 9 by norm_num]
        exact Nat.pow_le_pow_right (by decide) hle
      have hfirst := addChunk_eq (Nat.pow_pos (by decide)) hbase 0 (htake.le.trans hle)
      rw [Nat.digits_zero, Nat.zero_mul, Nat.zero_add] at hfirst
      have hall := ofDecimal_append (digits.take size) (digits.drop size)
      rw [List.take_append_drop] at hall
      show (if digits.length = 0 then _ else _) = _
      rw [if_neg hpos.ne', ← List.map_take, ← List.map_drop, hfirst]
      show addChunks _ _ _ = _
      rw [addChunks_eq _ _ hrest, ← hall]

/-! ## Bytes of digits -/

theorem ofNat_and (digit : Nat) :
    BitVec.ofNat 8 (digit &&& 0xFF) = BitVec.ofNat 8 (digit % 256) := by
  rw [show (0xFF : Nat) = 2 ^ 8 - 1 by norm_num, Nat.and_two_pow_sub_one_eq_mod]

theorem digitBytes_last (n : Nat) : ∀ {digit : Nat}, digit < 256 ^ n →
    digitBytes true n digit = (Nat.digits 256 digit).map (BitVec.ofNat 8) := by
  induction n with
  | zero =>
      intro digit hlt
      rw [pow_zero] at hlt
      rw [Nat.lt_one_iff.mp hlt]
      rfl
  | succ n ih =>
      intro digit hlt
      by_cases hzero : digit = 0
      · rw [hzero]
        rfl
      · have hdiv : digit / 256 < 256 ^ n := by
          rw [pow_succ] at hlt
          exact Nat.div_lt_of_lt_mul (by rwa [Nat.mul_comm])
        rw [digitBytes, Bool.true_and, decide_eq_false hzero, if_neg (by decide), ofNat_and,
          Nat.shiftRight_eq_div_pow, ih hdiv,
          Nat.digits_def' (by decide) (Nat.pos_of_ne_zero hzero), List.map_cons]

theorem digitBytes_append {n : Nat} (hn : n / 2 ^ 32 ≠ 0) :
    digitBytes false 4 (n % 2 ^ 32) ++ (Nat.digits 256 (n / 2 ^ 32)).map (BitVec.ofNat 8) =
      (Nat.digits 256 n).map (BitVec.ofNat 8) := by
  have hbytes : digitBytes false 4 (n % 2 ^ 32) = [n % 256, n / 256 % 256, n / 256 / 256 % 256,
      n / 256 / 256 / 256 % 256].map (BitVec.ofNat 8) := by
    simp only [digitBytes, Bool.false_and, Bool.false_eq_true, if_false, ofNat_and,
      Nat.shiftRight_eq_div_pow, List.map_cons, List.map_nil]
    refine congrArg₂ _ ?_ (congrArg₂ _ ?_ (congrArg₂ _ ?_ (congrArg₂ _ ?_ rfl))) <;>
      exact congrArg (BitVec.ofNat 8) (by omega)
  have hdigits : Nat.digits 256 n = [n % 256, n / 256 % 256, n / 256 / 256 % 256,
      n / 256 / 256 / 256 % 256] ++ Nat.digits 256 (n / 2 ^ 32) := by
    rw [Nat.digits_def' (by decide) (by omega), Nat.digits_def' (by decide) (by omega),
      Nat.digits_def' (by decide) (by omega), Nat.digits_def' (by decide) (by omega)]
    rw [show n / 256 / 256 / 256 / 256 = n / 2 ^ 32 by omega]
    rfl
  rw [hbytes, hdigits, List.map_append]

theorem digitsBytes_eq (n : Nat) :
    digitsBytes (Nat.digits (2 ^ 32) n) = (Nat.digits 256 n).map (BitVec.ofNat 8) := by
  induction n using Nat.strongRecOn with
  | _ n ih =>
      by_cases hn : n = 0
      · rw [hn]
        rfl
      · rw [Nat.digits_def' (by decide) (Nat.pos_of_ne_zero hn), digitsBytes]
        by_cases hhigh : n / 2 ^ 32 = 0
        · have hlt : n < 2 ^ 32 := by omega
          rw [hhigh, Nat.digits_zero, Nat.mod_eq_of_lt hlt]
          show digitBytes true 4 n ++ [] = _
          rw [List.append_nil, digitBytes_last 4 (by norm_num at hlt ⊢; exact hlt)]
        · have hne : Nat.digits (2 ^ 32) (n / 2 ^ 32) ≠ [] :=
            Nat.digits_ne_nil_iff_ne_zero.mpr hhigh
          have hlength : decide ((Nat.digits (2 ^ 32) (n / 2 ^ 32)).length = 0) = false :=
            decide_eq_false (List.length_pos_of_ne_nil hne).ne'
          rw [hlength, ih (n / 2 ^ 32) (by omega), digitBytes_append hhigh]

/-! ## Encoding -/

theorem encodeBignum_eq {digits : List (Fin 10)} {isNegative : Bool} (hpos : 0 < ofDecimal digits) :
    encodeBignum (digits.map digitChar) isNegative false =
      .ok (encoding (if isNegative then -ofDecimal digits else ofDecimal digits)) := by
  obtain ⟨n, hn⟩ : ∃ n, ofDecimal digits = n := ⟨_, rfl⟩
  rw [hn] at hpos ⊢
  rw [encodeBignum, if_neg (by decide), binaryDigits_eq, hn]
  have hdata : dataBytes n = bigEndian n := if_neg hpos.ne'
  refine congrArg Except.ok ?_
  rw [digitsBytes_eq]
  cases isNegative with
  | true =>
      have hneg : (-(n : ℤ)) < 0 := by omega
      simp only [if_true, encoding, hneg, decide_true, Int.natAbs_neg, Int.natAbs_natCast, hdata,
        bigEndian, List.length_map, List.length_reverse, List.map_reverse]
  | false =>
      have hnonneg : ¬ (n : ℤ) < 0 := by omega
      simp only [Bool.false_eq_true, if_false, encoding, hnonneg, decide_false,
        Int.natAbs_natCast, hdata, bigEndian, List.length_map, List.length_reverse,
        List.map_reverse, List.map_id']

/-! ## Rounding up -/

theorem incrementDigits_spec : ∀ digits : List (Fin 10), ∃ digits' : List (Fin 10),
    incrementDigits (digits.map digitChar) = digits'.map digitChar ∧
      ofDecimal digits'.reverse = ofDecimal digits.reverse + 1
  | [] => ⟨[1], rfl, rfl⟩
  | d :: digits => by
      have hlast : ∀ (d : Fin 10) (digits : List (Fin 10)),
          ofDecimal (d :: digits).reverse = ofDecimal digits.reverse * 10 + d := by
        intro d digits
        rw [List.reverse_cons, ofDecimal_append, ofDecimal_cons]
        simp [ofDecimal]
      by_cases hd : d.val = 9
      · obtain ⟨digits', hincrement, hvalue⟩ := incrementDigits_spec digits
        refine ⟨0 :: digits', ?_, ?_⟩
        · rw [List.map_cons, incrementDigits, toNat_digitChar, hd, if_neg (by decide), hincrement]
          rfl
        · rw [hlast, hlast, hvalue, hd]
          simp
          ring
      · have hlt : d.val + 1 < 10 := by omega
        refine ⟨⟨d.val + 1, hlt⟩ :: digits, ?_, ?_⟩
        · rw [List.map_cons, incrementDigits, toNat_digitChar, Nat.div_eq_of_lt hlt, if_pos rfl,
            Nat.mod_eq_of_lt hlt]
          rfl
        · rw [hlast, hlast]
          simp
          ring

theorem incrementDecimalString_spec (digits : List (Fin 10)) : ∃ digits' : List (Fin 10),
    incrementDecimalString (digits.map digitChar) = digits'.map digitChar ∧
      ofDecimal digits' = ofDecimal digits + 1 := by
  obtain ⟨digits', hincrement, hvalue⟩ := incrementDigits_spec digits.reverse
  rw [List.reverse_reverse] at hvalue
  refine ⟨digits'.reverse, ?_, hvalue⟩
  rw [incrementDecimalString, ← List.map_reverse, hincrement, List.map_reverse]

theorem ofDecimal_dropWhile (digits : List (Fin 10)) :
    ofDecimal (digits.dropWhile (· = 0)) = ofDecimal digits := by
  have hzeros : digits.takeWhile (· = 0) =
      List.replicate (digits.takeWhile (· = 0)).length 0 :=
    List.eq_replicate_of_mem fun d hd => by simpa using List.mem_takeWhile_imp hd
  conv_rhs =>
    rw [← List.takeWhile_append_dropWhile (p := fun d => decide (d = 0)) (l := digits), hzeros]
  exact (ofDecimal_replicate_append _ _).symm

theorem ofDecimal_pos (digits : List (Fin 10)) (hne : digits.dropWhile (· = 0) ≠ []) :
    0 < ofDecimal (digits.dropWhile (· = 0)) := by
  cases hdrop : digits.dropWhile (· = 0) with
  | nil => exact absurd hdrop hne
  | cons d rest =>
      have hd : decide (d = 0) = false := head_dropWhile d (by rw [hdrop]; rfl)
      rw [decide_eq_false_iff_not, Fin.ext_iff] at hd
      have hmul : 0 < d.val * 10 ^ rest.length :=
        Nat.mul_pos (Nat.pos_of_ne_zero hd) (Nat.pow_pos (by decide))
      rw [ofDecimal_cons]
      omega

theorem encodeVarcharBignum_eq (parts : Parts) :
    encodeVarcharBignum parts.text parts.formatting =
      if parts.roundUp then
        encodeBignum (incrementDecimalString parts.run) (parts.sign = some true) false
      else encodeBignum parts.run (parts.sign = some true) parts.run.isEmpty := by
  have hdigits : (parts.text.drop parts.formatting.startPos).take
      (parts.formatting.endPos - parts.formatting.startPos) = parts.run := by
    show (parts.text.drop parts.start).take (parts.start + parts.run.length - parts.start) = _
    rw [Parts.drop_start, Nat.add_sub_cancel_left, List.take_left]
  have hzero : ∀ up : Bool, (if up = false then (parts.run.isEmpty && !up ||
      decide (parts.start = parts.start + parts.run.length) && !up) else false) =
        if up = false then parts.run.isEmpty else false := by
    intro up
    cases up with
    | true => rfl
    | false => cases parts.run <;> simp
  rw [encodeVarcharBignum, hdigits]
  cases hround : parts.roundUp with
  | true =>
      have hformat : parts.formatting.shouldRoundUp = true := hround
      rw [hformat, if_pos rfl, if_pos rfl]
      rfl
  | false =>
      have hformat : parts.formatting.shouldRoundUp = false := hround
      have hempty : (parts.formatting.isZero ||
          (decide (parts.formatting.startPos = parts.formatting.endPos) &&
            !parts.formatting.shouldRoundUp)) = parts.run.isEmpty := by
        have h := hzero parts.roundUp
        rwa [hround, if_pos rfl, if_pos rfl, ← hround] at h
      rw [if_neg (by rw [hformat]; decide), if_neg (by decide)]
      simp only [hempty]
      rfl

/-- A text becomes the integer that it denotes, rounded half away from zero. -/
theorem varcharToBignum_text (n : Numeral) :
    varcharToBignum n.text = .ok (encoding (roundHalfAwayFromZero n.value)) := by
  have hformat := Parts.varcharFormatting_valid (Parts.valid_ofNumeral n)
  have hrun : (Parts.ofNumeral n).run = (n.integer.dropWhile (· = 0)).map digitChar := rfl
  have hsign : (Parts.ofNumeral n).sign = n.sign := rfl
  rw [← Parts.text_ofNumeral, varcharToBignum, hformat, round_value, ← Parts.roundUp_ofNumeral]
  show encodeVarcharBignum _ _ = _
  rw [encodeVarcharBignum_eq, hrun, hsign, ← ofDecimal_dropWhile n.integer]
  have hpos := ofDecimal_pos n.integer
  obtain ⟨trimmed, htrimmed⟩ : ∃ trimmed, n.integer.dropWhile (· = 0) = trimmed := ⟨_, rfl⟩
  rw [htrimmed] at hpos ⊢
  cases (Parts.ofNumeral n).roundUp with
  | true =>
      obtain ⟨digits', hincrement, hvalue⟩ := incrementDecimalString_spec trimmed
      rw [if_pos rfl, if_pos rfl, hincrement, encodeBignum_eq (by omega), hvalue]
      by_cases hneg : n.sign = some true
      · simp [hneg]
      · simp [hneg]
  | false =>
      rw [if_neg Bool.false_ne_true, if_neg Bool.false_ne_true, add_zero]
      cases trimmed with
      | nil =>
          have hzero : ((ofDecimal [] : Nat) : ℤ) = 0 := rfl
          rw [hzero, mul_zero]
          rfl
      | cons d rest =>
          rw [List.map_cons, List.isEmpty_cons, ← List.map_cons, encodeBignum_eq (hpos (by simp))]
          by_cases hneg : n.sign = some true
          · simp [hneg]
          · simp [hneg]

theorem varcharToBignum_error {value : List UInt8} (h : ∀ n : Numeral, n.text ≠ value) :
    varcharToBignum value = .error (.conversion value) := by
  obtain ⟨parts, rfl⟩ := Parts.exists_text value
  have hinvalid : ¬ parts.Valid := by
    intro hvalid
    obtain ⟨n, hn⟩ := Parts.exists_numeral hvalid
    exact h n hn
  rw [varcharToBignum, Parts.varcharFormatting_invalid hinvalid]

end Bignum

end MiniDuck
