import MiniDuck.OrderCode

/-!
# Eight bytes at a time

The `SwarWord` primitives work on the eight bytes of a 64-bit word at
once. A word is a natural number below `2 ^ 64`, and `loadWord` and
`storeWord` read and write it in little-endian order. Each primitive is a
bytewise map: `and`, `or`, `xor` and the complement go through `loadWord`
byte by byte, and so does a sum in which no byte overflows. Read
backwards, words compare like their bytes (`compare_loadWord_reverse`).
-/

namespace MiniDuck

/-- `Load<uint64_t>` on a little-endian machine. -/
def loadWord (bytes : List UInt8) : Nat := bytes.foldr (fun b w => 256 * w + b.toNat) 0

/-- `Store<uint64_t>`: the low `n` bytes, lowest first. -/
def storeBytes : Nat → Nat → List UInt8
  | 0, _ => []
  | n + 1, w => UInt8.ofNat w :: storeBytes n (w / 256)

/-- `BSwap` of a number of `n` bytes. -/
def bswap (n w : Nat) : Nat := loadWord (storeBytes n w).reverse

namespace SwarWord

def size : Nat := 8

def lsb : Nat := 0x0101010101010101

def msb : Nat := 0x8080808080808080

def low7 : Nat := 0x7F7F7F7F7F7F7F7F

def notWord (w : Nat) : Nat := 2 ^ 64 - 1 - w

def zeroBytes (w : Nat) : Nat := notWord (((w &&& low7) + low7) % 2 ^ 64 ||| w) &&& msb

/-- `CountZeros::Trailing`, for words with a bit set. -/
def trailingZeros : Nat → Nat → Nat
  | 0, _ => 0
  | n + 1, w => if w % 2 = 1 then 0 else trailingZeros n (w / 2) + 1

def firstFlagged (mask : Nat) : Nat := trailingZeros 64 mask / 8

/-- Sums up the bytes, if the sum does not exceed 255. -/
def sumBytes (w : Nat) : Nat := w * lsb % 2 ^ 64 / 2 ^ 56

def countFlagged (mask : Nat) : Nat := sumBytes (mask / 2 ^ 7)

end SwarWord

@[simp] theorem loadWord_nil : loadWord [] = 0 := rfl

@[simp] theorem loadWord_cons (b : UInt8) (bytes : List UInt8) :
    loadWord (b :: bytes) = 256 * loadWord bytes + b.toNat := rfl

@[simp] theorem length_storeBytes (n w : Nat) : (storeBytes n w).length = n := by
  induction n generalizing w with
  | zero => rfl
  | succ n ih => simp [storeBytes, ih]

theorem storeBytes_loadWord (bytes : List UInt8) :
    storeBytes bytes.length (loadWord bytes) = bytes := by
  induction bytes with
  | nil => rfl
  | cons b bytes ih =>
      have hb : b.toNat < 256 := b.toNat_lt
      have hdiv : (256 * loadWord bytes + b.toNat) / 256 = loadWord bytes := by omega
      have hmod : UInt8.ofNat (256 * loadWord bytes + b.toNat) = b := by
        apply UInt8.toNat_inj.mp
        rw [UInt8.toNat_ofNat']
        omega
      simp only [List.length_cons, storeBytes, loadWord_cons, hdiv, hmod, ih]

theorem loadWord_storeBytes (n v : Nat) : loadWord (storeBytes n v) = v % 256 ^ n := by
  induction n generalizing v with
  | zero => simp [storeBytes, Nat.mod_one]
  | succ n ih =>
      have hpow : 256 ^ (n + 1) = 256 * 256 ^ n := Nat.pow_succ'
      have hbyte : (UInt8.ofNat v).toNat = v % 256 := UInt8.toNat_ofNat'
      rw [storeBytes, loadWord_cons, ih, hbyte, hpow, Nat.mod_mul]
      omega

theorem loadWord_lt (bytes : List UInt8) : loadWord bytes < 256 ^ bytes.length := by
  induction bytes with
  | nil => simp
  | cons b bytes ih =>
      have hb : b.toNat < 256 := b.toNat_lt
      rw [loadWord_cons, List.length_cons, Nat.pow_succ]
      omega

/-- A bitwise operation on two numbers works on the low byte and on the rest. -/
theorem bitwise_bytes {op : Nat → Nat → Nat} {f : Bool → Bool → Bool}
    (hop : ∀ x y i, (op x y).testBit i = f (x.testBit i) (y.testBit i))
    {a b : Nat} (x y : Nat) (ha : a < 256) (hb : b < 256) (hab : op a b < 256) :
    op (256 * x + a) (256 * y + b) = 256 * op x y + op a b := by
  refine Nat.eq_of_testBit_eq fun i => ?_
  have h256 : (256 : Nat) = 2 ^ 8 := rfl
  rw [hop, h256, Nat.testBit_two_pow_mul_add x (h256 ▸ ha),
    Nat.testBit_two_pow_mul_add y (h256 ▸ hb), Nat.testBit_two_pow_mul_add _ (h256 ▸ hab)]
  split
  · rw [hop]
  · rw [hop]

theorem loadWord_zipWith {op : Nat → Nat → Nat} {f : Bool → Bool → Bool}
    (hop : ∀ x y i, (op x y).testBit i = f (x.testBit i) (y.testBit i)) (h0 : op 0 0 = 0)
    {g : UInt8 → UInt8 → UInt8} (hg : ∀ a b, (g a b).toNat = op a.toNat b.toNat) :
    {as bs : List UInt8} → as.length = bs.length →
      loadWord (List.zipWith g as bs) = op (loadWord as) (loadWord bs)
  | [], [], _ => h0.symm
  | [], _ :: _, h => by simp at h
  | _ :: _, [], h => by simp at h
  | a :: as, b :: bs, h => by
      have hab : op a.toNat b.toNat < 256 := by
        rw [← hg]
        exact UInt8.toNat_lt _
      rw [List.zipWith_cons_cons, loadWord_cons, loadWord_cons, loadWord_cons,
        bitwise_bytes hop _ _ a.toNat_lt b.toNat_lt hab,
        loadWord_zipWith hop h0 hg (by simpa using h), hg]

theorem loadWord_and {as bs : List UInt8} (h : as.length = bs.length) :
    loadWord as &&& loadWord bs = loadWord (List.zipWith (· &&& ·) as bs) :=
  (loadWord_zipWith (fun x y i => Nat.testBit_and x y i) rfl UInt8.toNat_and h).symm

theorem loadWord_or {as bs : List UInt8} (h : as.length = bs.length) :
    loadWord as ||| loadWord bs = loadWord (List.zipWith (· ||| ·) as bs) :=
  (loadWord_zipWith (fun x y i => Nat.testBit_or x y i) rfl UInt8.toNat_or h).symm

theorem loadWord_xor {as bs : List UInt8} (h : as.length = bs.length) :
    loadWord as ^^^ loadWord bs = loadWord (List.zipWith (· ^^^ ·) as bs) :=
  (loadWord_zipWith (fun x y i => Nat.testBit_xor x y i) rfl UInt8.toNat_xor h).symm

theorem loadWord_add : {as bs : List UInt8} → as.length = bs.length →
    (∀ p ∈ as.zip bs, p.1.toNat + p.2.toNat < 256) →
    loadWord as + loadWord bs = loadWord (List.zipWith (· + ·) as bs)
  | [], [], _, _ => rfl
  | [], _ :: _, h, _ => by simp at h
  | _ :: _, [], h, _ => by simp at h
  | a :: as, b :: bs, h, hlt => by
      have hab := hlt (a, b) (by simp)
      have hrec := @loadWord_add as bs (by simpa using h)
        fun p hp => hlt p (by simp [hp])
      have hsum : (a + b).toNat = a.toNat + b.toNat := by
        rw [UInt8.toNat_add]
        exact Nat.mod_eq_of_lt hab
      rw [List.zipWith_cons_cons, loadWord_cons, loadWord_cons, loadWord_cons, ← hrec, hsum]
      omega

theorem loadWord_not (bytes : List UInt8) :
    256 ^ bytes.length - 1 - loadWord bytes = loadWord (bytes.map (~~~ ·)) := by
  induction bytes with
  | nil => rfl
  | cons b bytes ih =>
      have hlt := loadWord_lt bytes
      have hb : b.toNat < 256 := b.toNat_lt
      have hnot : (~~~b).toNat = 255 - b.toNat := UInt8.toNat_not b
      rw [List.map_cons, loadWord_cons, loadWord_cons, ← ih, hnot, List.length_cons, Nat.pow_succ]
      omega

theorem zipWith_replicate (g : UInt8 → UInt8 → UInt8) (b : UInt8) (as : List UInt8) :
    List.zipWith g as (List.replicate as.length b) = as.map (g · b) := by
  induction as with
  | nil => rfl
  | cons a as ih => simp [List.replicate_succ, ih]

/-! ## Comparing words -/

theorem compare_byte (a b : UInt8) : compare a b = compare a.toNat b.toNat := by
  show compareOfLessAndEq a b = compareOfLessAndEq a.toNat b.toNat
  simp only [compareOfLessAndEq, UInt8.lt_iff_toNat_lt, ← UInt8.toNat_inj]

theorem compare_congr {α β : Type} [LinearOrder α] [LinearOrder β] {a b : α} {c d : β}
    (hlt : a < b ↔ c < d) (hgt : b < a ↔ d < c) : compare a b = compare c d := by
  rcases lt_trichotomy a b with h | h | h
  · rw [compare_lt_iff_lt.mpr h, compare_lt_iff_lt.mpr (hlt.mp h)]
  · have hcd : c = d := by
      refine le_antisymm (not_lt.mp fun hdc => ?_) (not_lt.mp fun hcd => ?_)
      · exact absurd (hgt.mpr hdc) (by simp [h])
      · exact absurd (hlt.mpr hcd) (by simp [h])
    rw [compare_eq_iff_eq.mpr h, compare_eq_iff_eq.mpr hcd]
  · rw [compare_gt_iff_gt.mpr h, compare_gt_iff_gt.mpr (hgt.mp h)]

/-- A number in two digits is compared by the upper digit first. -/
theorem compare_digits {m x y a b : Nat} (hx : x < m) (hy : y < m) :
    compare (m * a + x) (m * b + y) = (compare a b).then (compare x y) := by
  rcases Nat.lt_trichotomy a b with h | h | h
  · have hlt : m * a + x < m * b + y := by
      have : m * (a + 1) ≤ m * b := Nat.mul_le_mul_left m h
      rw [Nat.mul_succ] at this
      omega
    rw [compare_lt_iff_lt.mpr h, compare_lt_iff_lt.mpr hlt]
    rfl
  · subst h
    rw [compare_eq_iff_eq.mpr rfl]
    exact compare_congr (by omega) (by omega)
  · have hlt : m * b + y < m * a + x := by
      have : m * (b + 1) ≤ m * a := Nat.mul_le_mul_left m h
      rw [Nat.mul_succ] at this
      omega
    rw [compare_gt_iff_gt.mpr h, compare_gt_iff_gt.mpr hlt]
    rfl

theorem loadWord_append (x y : List UInt8) :
    loadWord (x ++ y) = 256 ^ x.length * loadWord y + loadWord x := by
  induction x with
  | nil => simp
  | cons b x ih =>
      rw [List.cons_append, loadWord_cons, loadWord_cons, ih, List.length_cons, Nat.pow_succ]
      rw [Nat.mul_add, ← Nat.mul_assoc, Nat.mul_comm 256, Nat.add_assoc]

/-- Big-endian numbers of the same length compare like their bytes. -/
theorem compare_loadWord_reverse : {x y : List UInt8} → x.length = y.length →
    compareWords x y = compare (loadWord x.reverse) (loadWord y.reverse)
  | [], [], _ => rfl
  | [], _ :: _, h => by simp at h
  | _ :: _, [], h => by simp at h
  | a :: x, b :: y, h => by
      have hlen : x.length = y.length := by simpa using h
      have hx := loadWord_lt x.reverse
      have hy := loadWord_lt y.reverse
      rw [List.length_reverse] at hx hy
      rw [compareWords_cons, compare_loadWord_reverse hlen, List.reverse_cons, List.reverse_cons,
        loadWord_append, loadWord_append, List.length_reverse, List.length_reverse, ← hlen,
        compare_byte]
      rw [← hlen] at hy
      rw [compare_digits hx hy]
      simp

theorem bswap_loadWord {bytes : List UInt8} {n : Nat} (h : bytes.length = n) :
    bswap n (loadWord bytes) = loadWord bytes.reverse := by
  rw [bswap, ← h, storeBytes_loadWord]

/-! ## The primitives as bytewise maps -/

namespace SwarWord

theorem lsb_eq : lsb = loadWord (List.replicate 8 1) := by decide

theorem msb_eq : msb = loadWord (List.replicate 8 0x80) := by decide

theorem low7_eq : low7 = loadWord (List.replicate 8 0x7F) := by decide

variable {bytes : List UInt8}

theorem and_replicate (h : bytes.length = 8) (b : UInt8) :
    loadWord bytes &&& loadWord (List.replicate 8 b) = loadWord (bytes.map (· &&& b)) := by
  rw [loadWord_and (by simp [h]), ← h, zipWith_replicate]

theorem add_replicate (h : bytes.length = 8) (b : UInt8)
    (hlt : ∀ a ∈ bytes, a.toNat + b.toNat < 256) :
    (loadWord bytes + loadWord (List.replicate 8 b)) % 2 ^ 64 = loadWord (bytes.map (· + b)) := by
  have hadd : loadWord bytes + loadWord (List.replicate 8 b) = loadWord (bytes.map (· + b)) := by
    rw [loadWord_add (by simp [h]), ← h, zipWith_replicate]
    intro p hp
    obtain ⟨hp1, hp2⟩ := List.of_mem_zip hp
    rw [List.eq_of_mem_replicate hp2]
    exact hlt p.1 hp1
  have hbound : loadWord (bytes.map (· + b)) < 2 ^ 64 := by
    have := loadWord_lt (bytes.map (· + b))
    rwa [List.length_map, h] at this
  rw [hadd, Nat.mod_eq_of_lt hbound]

theorem notWord_loadWord (h : bytes.length = 8) :
    notWord (loadWord bytes) = loadWord (bytes.map (~~~ ·)) := by
  have := loadWord_not bytes
  rw [h] at this
  exact this

theorem zipWith_map_self (g : UInt8 → UInt8 → UInt8) (f f' : UInt8 → UInt8) :
    List.zipWith g (bytes.map f) (bytes.map f') = bytes.map fun b => g (f b) (f' b) := by
  rw [List.zipWith_map, List.zipWith_self]

theorem zeroBytes_loadWord (h : bytes.length = 8) :
    zeroBytes (loadWord bytes) = loadWord (bytes.map fun b => if b = 0 then 0x80 else 0) := by
  have hsum : ((loadWord bytes &&& low7) + low7) % 2 ^ 64 =
      loadWord (bytes.map fun b => (b &&& 0x7F) + 0x7F) := by
    rw [low7_eq, and_replicate h, add_replicate (by simpa using h), List.map_map]
    · rfl
    · intro a ha
      obtain ⟨b, -, rfl⟩ := List.mem_map.mp ha
      have hle : (b &&& 0x7F).toNat ≤ 127 := by
        rw [UInt8.toNat_and]
        exact Nat.and_le_right
      have h127 : (0x7F : UInt8).toNat = 127 := rfl
      omega
  unfold zeroBytes
  rw [hsum, loadWord_or (by simp), msb_eq]
  have hor : List.zipWith (· ||| ·) (bytes.map fun b => (b &&& 0x7F) + 0x7F) bytes =
      bytes.map fun b => ((b &&& 0x7F) + 0x7F) ||| b := by
    have := @zipWith_map_self bytes (· ||| ·) (fun b => (b &&& 0x7F) + 0x7F) id
    simpa using this
  rw [hor, notWord_loadWord (by simpa using h), and_replicate (by simpa using h), List.map_map,
    List.map_map]
  refine congrArg loadWord (List.map_congr_left fun b _ => ?_)
  have hbyte : ∀ b : BitVec 8, (~~~(((b &&& 0x7F#8) + 0x7F#8) ||| b)) &&& 0x80#8 =
      if b = 0#8 then 0x80#8 else 0#8 := by decide
  apply UInt8.toBitVec_inj.mp
  refine (hbyte b.toBitVec).trans ?_
  by_cases hb : b = 0
  · subst hb
    rfl
  · have : b.toBitVec ≠ 0#8 := fun hz => hb (UInt8.toBitVec_inj.mp hz)
    simp [hb, this]

/-! ## The first flagged byte -/

theorem trailingZeros_double (n w : Nat) :
    trailingZeros (n + 1) (2 * w) = trailingZeros n w + 1 := by
  have hmod : ¬ 2 * w % 2 = 1 := by omega
  have hdiv : 2 * w / 2 = w := by omega
  rw [trailingZeros, if_neg hmod, hdiv]

theorem trailingZeros_skip (n w : Nat) :
    trailingZeros (n + 8) (256 * w) = trailingZeros n w + 8 := by
  have h256 : 256 * w = 2 * (2 * (2 * (2 * (2 * (2 * (2 * (2 * w))))))) := by omega
  rw [h256]
  iterate 8 rw [trailingZeros_double]

theorem trailingZeros_flag (n w : Nat) : trailingZeros (n + 8) (256 * w + 128) = 7 := by
  have hodd : trailingZeros (n + 1) (2 * w + 1) = 0 := by
    rw [trailingZeros, if_pos (by omega)]
  have h256 : 256 * w + 128 = 2 * (2 * (2 * (2 * (2 * (2 * (2 * (2 * w + 1))))))) := by omega
  rw [h256]
  iterate 7 rw [trailingZeros_double]
  rw [hodd]

/-- The first flagged byte of a mask is the first byte that the predicate flags. -/
theorem firstFlagged_loadWord (p : UInt8 → Bool) (bytes : List UInt8)
    (hn : bytes.length ≤ 8) (h : bytes.any p = true) :
    firstFlagged (loadWord (bytes.map fun b => if p b then 0x80 else 0)) =
      bytes.findIdx p := by
  have hgen : ∀ (bytes : List UInt8) (n : Nat), 8 * bytes.length ≤ n → bytes.any p = true →
      trailingZeros n (loadWord (bytes.map fun b => if p b then 0x80 else 0)) =
        8 * bytes.findIdx p + 7 := by
    intro bytes
    induction bytes with
    | nil =>
        intro n _ h
        simp at h
    | cons b bytes ih =>
        intro n hn h
        rw [List.length_cons] at hn
        obtain ⟨k, rfl⟩ : ∃ k, n = k + 8 := ⟨n - 8, by omega⟩
        rw [List.map_cons, loadWord_cons, List.findIdx_cons]
        cases hb : p b with
        | true => exact trailingZeros_flag k _
        | false =>
            have hrest : bytes.any p = true := by simpa [hb] using h
            have hrec := ih k (by omega) hrest
            have hskip := trailingZeros_skip k
              (loadWord (bytes.map fun b => if p b then 0x80 else 0))
            rw [hrec] at hskip
            simp only [Bool.false_eq_true, if_false, cond_false]
            exact hskip.trans (by omega)
  unfold firstFlagged
  rw [hgen bytes 64 (by omega) h]
  omega

/-! ## Counting flags -/

def loadDigits (digits : List Nat) : Nat := digits.foldr (fun d w => 256 * w + d) 0

theorem loadDigits_add : {xs ys : List Nat} → xs.length = ys.length →
    loadDigits xs + loadDigits ys = loadDigits (List.zipWith (· + ·) xs ys)
  | [], [], _ => rfl
  | [], _ :: _, h => by simp at h
  | _ :: _, [], h => by simp at h
  | x :: xs, y :: ys, h => by
      have hrec := @loadDigits_add xs ys (by simpa using h)
      simp only [loadDigits, List.zipWith_cons_cons, List.foldr_cons] at hrec ⊢
      omega

theorem loadDigits_lt {digits : List Nat} (h : ∀ d ∈ digits, d ≤ 255) :
    loadDigits digits < 256 ^ digits.length := by
  induction digits with
  | nil => simp [loadDigits]
  | cons d digits ih =>
      have hd := h d List.mem_cons_self
      have hrec := ih fun d hd => h d (List.mem_cons_of_mem _ hd)
      rw [loadDigits, List.foldr_cons, ← loadDigits, List.length_cons, Nat.pow_succ]
      omega

theorem sumBytes_loadDigits : {digits : List Nat} → digits.length = 8 → digits.sum ≤ 255 →
    sumBytes (loadDigits digits) = digits.sum
  | [a, b, c, d, e, f, g, h], _, hsum => by
      simp only [List.sum_cons, List.sum_nil, Nat.add_zero] at hsum ⊢
      -- the digits of the product above and below the eighth
      let high := b + c * 257 + d * 65793 + e * 16843009 + f * 4311810305 + g * 1103823438081 +
        h * 282578800148737
      let low := a + 256 * (a + b) + 256 ^ 2 * (a + b + c) + 256 ^ 3 * (a + b + c + d) +
        256 ^ 4 * (a + b + c + d + e) + 256 ^ 5 * (a + b + c + d + e + f) +
        256 ^ 6 * (a + b + c + d + e + f + g)
      have hprod : loadDigits [a, b, c, d, e, f, g, h] * lsb =
          2 ^ 64 * high + (2 ^ 56 * (a + (b + (c + (d + (e + (f + (g + h))))))) + low) := by
        simp only [loadDigits, List.foldr, lsb, high, low]
        omega
      have hlow : low < 2 ^ 56 := by
        simp only [low]
        omega
      rw [sumBytes, hprod, Nat.mul_add_mod, Nat.mod_eq_of_lt (by omega),
        Nat.mul_add_div (by decide), Nat.div_eq_of_lt hlow, Nat.add_zero]

/-- Flags shifted down are digits that count the flagged bytes. -/
theorem loadWord_flags (p : UInt8 → Bool) (bytes : List UInt8) :
    loadWord (bytes.map fun b => if p b then 0x80 else 0) / 2 ^ 7 =
      loadDigits (bytes.map fun b => (p b).toNat) := by
  have hmul : loadWord (bytes.map fun b => if p b then 0x80 else 0) =
      2 ^ 7 * loadDigits (bytes.map fun b => (p b).toNat) := by
    induction bytes with
    | nil => rfl
    | cons b bytes ih =>
        simp only [loadDigits, List.map_cons, List.foldr_cons, loadWord_cons] at ih ⊢
        rw [ih]
        cases p b with
        | false =>
            simp only [Bool.false_eq_true, if_false, Bool.toNat_false, UInt8.toNat_zero]
            omega
        | true =>
            have h80 : (0x80 : UInt8).toNat = 128 := rfl
            simp only [if_true, Bool.toNat_true, h80]
            omega
  rw [hmul, Nat.mul_div_cancel_left _ (by decide)]

theorem sum_toNat (p : UInt8 → Bool) (bytes : List UInt8) :
    (bytes.map fun b => (p b).toNat).sum = bytes.countP p := by
  induction bytes with
  | nil => rfl
  | cons b bytes ih =>
      rw [List.map_cons, List.sum_cons, List.countP_cons, ih]
      cases p b <;> simp [Nat.add_comm]

end SwarWord

end MiniDuck
