import MiniDuck.BignumEncoding

/-!
# Arithmetic on decimal limbs

Numbers in base 10^9, the lowest limb first. Sums and differences have
the right values (`addDecimalLimbs_spec`, `subtractDecimalLimbs_spec`),
no operation on limbs overflows and no vector is read behind its end. The
product is that of the schoolbook at every size, by any of the three
methods (`multiplyDecimalLimbs_eq`).
-/

namespace MiniDuck

namespace Bignum

def karatsubaThreshold : Nat := 48

def trimLimbs (limbs : List Nat) : List Nat := limbs.rdropWhile (· = 0)

def addCarry : List Nat → Nat → Except BignumError (List Nat)
  | limbs, 0 => .ok limbs
  | [], carry => .ok [carry]
  | a :: limbs, carry => do
      let sum ← add32 a carry
      if decimalBase ≤ sum then
        let limb ← sub32 sum decimalBase
        let limbs ← addCarry limbs 1
        return limb :: limbs
      else return sum :: limbs

/-- The sum of the limbs of `b` and those of `a` above the shift. -/
def addLimbs : List Nat → List Nat → Nat → Except BignumError (List Nat)
  | as, [], carry => addCarry as carry
  | [], _ :: _, _ => .error .outOfBounds
  | a :: as, b :: bs, carry => do
      let sum ← add32 a b
      let sum ← add32 sum carry
      if decimalBase ≤ sum then
        let limb ← sub32 sum decimalBase
        let limbs ← addLimbs as bs 1
        return limb :: limbs
      else
        let limbs ← addLimbs as bs 0
        return sum :: limbs

def addDecimalLimbs (a b : List Nat) (shift : Nat) : Except BignumError (List Nat) := do
  let b := trimLimbs b
  let a := a ++ List.replicate (shift + b.length - a.length) 0
  let limbs ← addLimbs (a.drop shift) b 0
  return a.take shift ++ limbs

def subtractDecimalLimbs : List Nat → List Nat → Nat → Except BignumError (List Nat)
  | [], [], borrow => if borrow = 0 then .ok [] else .error .outOfBounds
  | [], _ :: bs, borrow => subtractDecimalLimbs [] bs borrow
  | a :: as, [], borrow =>
      if borrow = 0 then .ok (a :: as)
      else if a = 0 then do
        let limbs ← subtractDecimalLimbs as [] 1
        return (decimalBase - 1) :: limbs
      else do
        let limb ← sub32 a 1
        return limb :: as
  | a :: as, b :: bs, borrow => do
      let subtrahend ← add32 b borrow
      if a < subtrahend then
        let limb ← add32 a decimalBase
        let limb ← sub32 limb subtrahend
        let limbs ← subtractDecimalLimbs as bs 1
        return limb :: limbs
      else
        let limb ← sub32 a subtrahend
        let limbs ← subtractDecimalLimbs as bs 0
        return limb :: limbs

/-- Adds the product of a limb of `b` and the limbs of `a`; the limb above them is overwritten by
the carry. -/
def multiplyLimb (b : Nat) : List Nat → List Nat → Nat → Except BignumError (List Nat)
  | [], _ :: result, carry => .ok (toDigit carry :: result)
  | a :: as, limb :: result, carry => do
      let current ← mul64 b a
      let current ← add64 current limb
      let current ← add64 current carry
      let carry := current / decimalBase
      let whole ← mul64 carry decimalBase
      let limb ← sub64 current whole
      let result ← multiplyLimb b as result carry
      return toDigit limb :: result
  | _, [], _ => .error .outOfBounds

/-- The schoolbook product, added to the limbs of `result`. -/
def multiplyLimbs (a : List Nat) : List Nat → List Nat → Except BignumError (List Nat)
  | [], result => .ok result
  | b :: bs, result => do
      let result ← multiplyLimb b a result 0
      match result with
      | [] => .error .outOfBounds
      | limb :: result =>
          let result ← multiplyLimbs a bs result
          return limb :: result

/-- `MultiplyDecimalLimbs`, with a bound on the depth of its recursion. -/
def multiplyDecimalLimbs : Nat → List Nat → List Nat → Except BignumError (List Nat)
  | 0, _, _ => .error .outOfFuel
  | fuel + 1, a, b => do
      let (a, b) := if a.length < b.length then (b, a) else (a, b)
      if b.length = 0 then return []
      let result := List.replicate (a.length + b.length) 0
      if b.length < karatsubaThreshold then
        let result ← multiplyLimbs a b result
        return trimLimbs result
      if 2 * b.length ≤ a.length then
        -- unbalanced: multiply b with chunks of a
        let chunks := (a.length + b.length - 1) / b.length
        let result ← (List.range chunks).foldlM (fun result i => do
          let offset := i * b.length
          let part ← multiplyDecimalLimbs fuel ((a.drop offset).take b.length) b
          addDecimalLimbs result part offset) result
        return trimLimbs result
      let m := a.length / 2
      let z0 ← multiplyDecimalLimbs fuel (a.take m) (b.take m)
      let z2 ← multiplyDecimalLimbs fuel (a.drop m) (b.drop m)
      let aSum ← addDecimalLimbs (a.take m) (a.drop m) 0
      let bSum ← addDecimalLimbs (b.take m) (b.drop m) 0
      -- z1 = (a0 + a1) * (b0 + b1) - z0 - z2
      let z1 ← multiplyDecimalLimbs fuel aSum bSum
      let z1 ← subtractDecimalLimbs z1 z0 0
      let z1 ← subtractDecimalLimbs z1 z2 0
      let result ← addDecimalLimbs result z0 0
      let result ← addDecimalLimbs result z1 m
      let result ← addDecimalLimbs result z2 (2 * m)
      return trimLimbs result

/-! ## Limbs and their values -/

def IsLimbs (limbs : List Nat) : Prop := ∀ limb ∈ limbs, limb < decimalBase

abbrev value (limbs : List Nat) : Nat := Nat.ofDigits decimalBase limbs

abbrev limbsOf (n : Nat) : List Nat := Nat.digits decimalBase n

theorem isLimbs_limbsOf (n : Nat) : IsLimbs (limbsOf n) :=
  fun _ h => Nat.digits_lt_base (by decide) h

theorem value_limbsOf (n : Nat) : value (limbsOf n) = n := Nat.ofDigits_digits _ _

variable {limbs : List Nat}

theorem IsLimbs.cons {limb : Nat} (h : limb < decimalBase) (hlimbs : IsLimbs limbs) :
    IsLimbs (limb :: limbs) := by
  intro l hl
  obtain rfl | hl := List.mem_cons.mp hl
  · exact h
  · exact hlimbs l hl

theorem IsLimbs.head {limb : Nat} (h : IsLimbs (limb :: limbs)) :
    limb < decimalBase := h limb List.mem_cons_self

theorem IsLimbs.tail {limb : Nat} (h : IsLimbs (limb :: limbs)) :
    IsLimbs limbs := fun l hl => h l (List.mem_cons_of_mem limb hl)

theorem IsLimbs.append {xs ys : List Nat} (hx : IsLimbs xs) (hy : IsLimbs ys) :
    IsLimbs (xs ++ ys) := by
  intro l hl
  obtain hl | hl := List.mem_append.mp hl
  · exact hx l hl
  · exact hy l hl

theorem IsLimbs.take {xs : List Nat} (hx : IsLimbs xs) (n : Nat) : IsLimbs (xs.take n) :=
  fun l hl => hx l (List.mem_of_mem_take hl)

theorem IsLimbs.drop {xs : List Nat} (hx : IsLimbs xs) (n : Nat) : IsLimbs (xs.drop n) :=
  fun l hl => hx l (List.mem_of_mem_drop hl)

theorem isLimbs_replicate (n : Nat) : IsLimbs (List.replicate n 0) := by
  intro l hl
  rw [List.eq_of_mem_replicate hl]
  decide

theorem value_cons (limb : Nat) (limbs : List Nat) :
    value (limb :: limbs) = limb + decimalBase * value limbs := Nat.ofDigits_cons

theorem value_append (xs ys : List Nat) :
    value (xs ++ ys) = value xs + decimalBase ^ xs.length * value ys := Nat.ofDigits_append

theorem value_replicate (n : Nat) : value (List.replicate n 0) = 0 := by
  have h := Nat.ofDigits_append_replicate_zero (b := decimalBase) (k := n) []
  rwa [List.nil_append] at h

theorem value_take_drop (limbs : List Nat) {n : Nat} (h : n ≤ limbs.length) :
    value limbs = value (limbs.take n) + decimalBase ^ n * value (limbs.drop n) := by
  conv_lhs => rw [← List.take_append_drop n limbs]
  rw [value_append, List.length_take, Nat.min_eq_left h]

theorem trimLimbs_append (limbs : List Nat) :
    ∃ k, limbs = trimLimbs limbs ++ List.replicate k 0 := by
  refine ⟨(limbs.reverse.takeWhile (· = 0)).length, ?_⟩
  have hzeros : limbs.reverse.takeWhile (· = 0) =
      List.replicate (limbs.reverse.takeWhile (· = 0)).length 0 :=
    List.eq_replicate_of_mem fun d hd => by simpa using List.mem_takeWhile_imp hd
  rw [trimLimbs, List.rdropWhile, ← List.reverse_replicate, ← hzeros, ← List.reverse_append,
    List.takeWhile_append_dropWhile, List.reverse_reverse]

theorem mem_trimLimbs {limb : Nat} (h : limb ∈ trimLimbs limbs) : limb ∈ limbs := by
  obtain ⟨k, hk⟩ := trimLimbs_append limbs
  rw [hk]
  exact List.mem_append_left _ h

theorem ofDigits_trimLimbs (base : Nat) (limbs : List Nat) :
    Nat.ofDigits base (trimLimbs limbs) = Nat.ofDigits base limbs := by
  obtain ⟨k, hk⟩ := trimLimbs_append limbs
  conv_rhs => rw [hk]
  exact (Nat.ofDigits_append_replicate_zero _).symm

theorem trimLimbs_eq (h : IsLimbs limbs) : trimLimbs limbs = limbsOf (value limbs) := by
  have hvalue : value limbs = value (trimLimbs limbs) := (ofDigits_trimLimbs _ _).symm
  rw [hvalue]
  refine (Nat.digits_ofDigits decimalBase (by decide) _ (fun l hl => h l (mem_trimLimbs hl))
    fun hne hzero => ?_).symm
  have hlast := List.rdropWhile_last_not (fun l => decide (l = 0)) limbs hne
  rw [decide_eq_true_eq] at hlast
  exact hlast hzero

theorem length_trimLimbs_le (limbs : List Nat) : (trimLimbs limbs).length ≤ limbs.length :=
  (List.rdropWhile_prefix _ limbs).length_le

/-! ## Sums and differences -/

theorem addCarry_spec : ∀ {limbs : List Nat} {carry : Nat}, IsLimbs limbs → carry ≤ 1 →
    ∃ limbs', addCarry limbs carry = .ok limbs' ∧ IsLimbs limbs' ∧
      limbs'.length ≤ limbs.length + 1 ∧ value limbs' = value limbs + carry
  | limbs, 0, h, _ => ⟨limbs, by rw [addCarry], h, Nat.le_succ _, rfl⟩
  | [], 1, h, _ => ⟨[1], rfl, IsLimbs.cons (by decide) h, le_rfl, by simp⟩
  | a :: limbs, 1, h, _ => by
      have ha := h.head
      rw [decimalBase] at ha
      by_cases hsum : decimalBase ≤ a + 1
      · obtain ⟨limbs', hrec, hlimbs', hlength, hvalue⟩ := addCarry_spec h.tail le_rfl
        have hzero : a + 1 - decimalBase = 0 := by
          rw [decimalBase]
          omega
        refine ⟨(a + 1 - decimalBase) :: limbs', ?_, IsLimbs.cons (by rw [hzero]; decide) hlimbs',
          ?_, ?_⟩
        · rw [addCarry, add32, unsigned_ok (by omega)]
          · show (if decimalBase ≤ a + 1 then _ else _) = _
            rw [if_pos hsum, sub32_ok hsum, hrec]
            rfl
          · exact Nat.one_ne_zero
        · rw [List.length_cons, List.length_cons]
          omega
        · rw [value_cons, value_cons, hvalue, hzero, Nat.mul_add, Nat.mul_one]
          omega
      · refine ⟨(a + 1) :: limbs, ?_, IsLimbs.cons (Nat.lt_of_not_le hsum) h.tail, ?_, ?_⟩
        · rw [addCarry, add32, unsigned_ok (by omega)]
          · show (if decimalBase ≤ a + 1 then _ else _) = _
            rw [if_neg hsum]
            rfl
          · exact Nat.one_ne_zero
        · rw [List.length_cons, List.length_cons]
          omega
        · rw [value_cons, value_cons]
          omega

theorem addLimbs_spec : ∀ {as bs : List Nat} {carry : Nat}, IsLimbs as → IsLimbs bs →
    bs.length ≤ as.length → carry ≤ 1 →
    ∃ limbs, addLimbs as bs carry = .ok limbs ∧ IsLimbs limbs ∧
      limbs.length ≤ as.length + 1 ∧ value limbs = value as + value bs + carry
  | as, [], carry, ha, _, _, hcarry => by
      obtain ⟨limbs, hadd, hlimbs, hlength, hvalue⟩ := addCarry_spec ha hcarry
      refine ⟨limbs, by rw [addLimbs, hadd], hlimbs, hlength, ?_⟩
      rw [hvalue]
      rfl
  | [], _ :: _, _, _, _, hle, _ => absurd hle (by simp)
  | a :: as, b :: bs, carry, ha, hb, hle, hcarry => by
      have ha' := ha.head
      have hb' := hb.head
      have hle' : bs.length ≤ as.length := by simpa using hle
      rw [decimalBase] at ha' hb'
      have hstart : addLimbs (a :: as) (b :: bs) carry =
          if decimalBase ≤ a + b + carry then do
            let limb ← sub32 (a + b + carry) decimalBase
            let limbs ← addLimbs as bs 1
            return limb :: limbs
          else do
            let limbs ← addLimbs as bs 0
            return (a + b + carry) :: limbs := by
        rw [addLimbs, add32, unsigned_ok (by omega)]
        show add32 (a + b) carry >>= _ = _
        rw [add32, unsigned_ok (by omega)]
        rfl
      rw [hstart]
      by_cases hsum : decimalBase ≤ a + b + carry
      · obtain ⟨limbs, hrec, hlimbs, hlength, hvalue⟩ :=
          addLimbs_spec ha.tail hb.tail hle' (le_refl 1)
        have hlimb : a + b + carry - decimalBase < decimalBase := by
          rw [decimalBase]
          omega
        refine ⟨(a + b + carry - decimalBase) :: limbs, ?_, IsLimbs.cons hlimb hlimbs, ?_, ?_⟩
        · rw [if_pos hsum, sub32_ok hsum, hrec]
          rfl
        · rw [List.length_cons, List.length_cons]
          omega
        · rw [value_cons, value_cons, value_cons, hvalue, Nat.mul_add, Nat.mul_add, Nat.mul_one]
          omega
      · obtain ⟨limbs, hrec, hlimbs, hlength, hvalue⟩ :=
          addLimbs_spec ha.tail hb.tail hle' (Nat.zero_le 1)
        refine ⟨(a + b + carry) :: limbs, ?_, IsLimbs.cons (Nat.lt_of_not_le hsum) hlimbs, ?_, ?_⟩
        · rw [if_neg hsum, hrec]
          rfl
        · rw [List.length_cons, List.length_cons]
          omega
        · rw [value_cons, value_cons, value_cons, hvalue, Nat.mul_add, Nat.mul_add, Nat.mul_zero]
          omega

variable {a : List Nat}

theorem addDecimalLimbs_spec {b : List Nat} (ha : IsLimbs a) (hb : IsLimbs b) (shift : Nat) :
    ∃ limbs, addDecimalLimbs a b shift = .ok limbs ∧ IsLimbs limbs ∧
      limbs.length ≤ max a.length (shift + b.length) + 1 ∧
      value limbs = value a + decimalBase ^ shift * value b := by
  obtain ⟨n, hn⟩ : ∃ n, shift + (trimLimbs b).length - a.length = n := ⟨_, rfl⟩
  have hpadded : IsLimbs (a ++ List.replicate n 0) := ha.append (isLimbs_replicate n)
  have hvalue : value (a ++ List.replicate n 0) = value a := by
    rw [value_append, value_replicate, Nat.mul_zero, Nat.add_zero]
  have htrim : trimLimbs b = limbsOf (value b) := trimLimbs_eq hb
  have hlength : (a ++ List.replicate n 0).length = a.length + n := by simp
  have hle : shift ≤ (a ++ List.replicate n 0).length := by
    rw [hlength]
    omega
  have hb' : IsLimbs (trimLimbs b) := by
    rw [htrim]
    exact isLimbs_limbsOf _
  obtain ⟨limbs, hadd, hlimbs, hsize, hsum⟩ := addLimbs_spec (hpadded.drop shift) hb'
    (by rw [List.length_drop, hlength]; omega) (Nat.zero_le 1)
  refine ⟨(a ++ List.replicate n 0).take shift ++ limbs, ?_, (hpadded.take shift).append hlimbs,
    ?_, ?_⟩
  · rw [addDecimalLimbs]
    simp only [hn, hadd]
    rfl
  · have htrimmed := length_trimLimbs_le b
    rw [List.length_append, List.length_take, Nat.min_eq_left hle]
    rw [List.length_drop, hlength] at hsize
    omega
  · rw [value_append, List.length_take, Nat.min_eq_left hle, hsum, htrim, value_limbsOf,
      ← hvalue, value_take_drop _ hle]
    ring

theorem subtractDecimalLimbs_spec : ∀ {a b : List Nat} {borrow : Nat}, IsLimbs a → IsLimbs b →
    borrow ≤ 1 → value b + borrow ≤ value a →
    ∃ limbs, subtractDecimalLimbs a b borrow = .ok limbs ∧ IsLimbs limbs ∧
      value limbs = value a - (value b + borrow)
  | [], [], borrow, ha, _, _, hle => by
      have hzero : borrow = 0 := by simpa using hle
      rw [hzero]
      exact ⟨[], by rw [subtractDecimalLimbs, if_pos rfl], ha, rfl⟩
  | [], b :: bs, borrow, ha, hb, hborrow, hle => by
      have hzero : b + decimalBase * value bs + borrow = 0 := by
        rw [value_cons] at hle
        exact Nat.le_zero.mp hle
      have hbs : value bs = 0 := by
        rw [decimalBase] at hzero
        omega
      obtain ⟨limbs, hsub, hlimbs, hvalue⟩ := subtractDecimalLimbs_spec ha hb.tail hborrow
        (by rw [hbs]; omega)
      refine ⟨limbs, by rw [subtractDecimalLimbs, hsub], hlimbs, ?_⟩
      rw [hvalue]
      simp
  | a :: as, [], borrow, ha, _, hborrow, hle => by
      have ha' := ha.head
      rw [decimalBase] at ha'
      by_cases hzero : borrow = 0
      · refine ⟨a :: as, by rw [subtractDecimalLimbs, if_pos hzero], ha, ?_⟩
        rw [hzero]
        rfl
      · have hone : borrow = 1 := by omega
        subst hone
        rw [value_cons] at hle
        by_cases hlimb : a = 0
        · have hpos : 1 ≤ value as := by
            rw [hlimb] at hle
            by_contra hnone
            have has : value as = 0 := by omega
            rw [has] at hle
            simp at hle
          obtain ⟨limbs, hsub, hlimbs, hvalue⟩ := subtractDecimalLimbs_spec (b := []) ha.tail
            (fun l hl => absurd hl List.not_mem_nil) (le_refl 1) (by simpa using hpos)
          refine ⟨(decimalBase - 1) :: limbs, ?_, IsLimbs.cons (by decide) hlimbs, ?_⟩
          · rw [subtractDecimalLimbs, if_neg (by decide), if_pos hlimb, hsub]
            rfl
          · obtain ⟨k, hk⟩ := Nat.exists_eq_add_of_le hpos
            have hvalue' : value limbs = k := by
              rw [hvalue, hk]
              simp
            rw [value_cons, value_cons, hvalue', hk, hlimb, Nat.mul_add, Nat.mul_one]
            have hbase : decimalBase = 1000000000 := rfl
            simp only [Nat.ofDigits_nil]
            omega
        · refine ⟨(a - 1) :: as, ?_, IsLimbs.cons (by rw [decimalBase]; omega) ha.tail, ?_⟩
          · rw [subtractDecimalLimbs, if_neg (by decide), if_neg hlimb, sub32_ok (by omega)]
            rfl
          · rw [value_cons, value_cons]
            simp only [Nat.ofDigits_nil]
            omega
  | a :: as, b :: bs, borrow, ha, hb, hborrow, hle => by
      have ha' := ha.head
      have hb' := hb.head
      have hbase : decimalBase = 1000000000 := rfl
      have hstart : subtractDecimalLimbs (a :: as) (b :: bs) borrow =
          if a < b + borrow then do
            let limb ← add32 a decimalBase
            let limb ← sub32 limb (b + borrow)
            let limbs ← subtractDecimalLimbs as bs 1
            return limb :: limbs
          else do
            let limb ← sub32 a (b + borrow)
            let limbs ← subtractDecimalLimbs as bs 0
            return limb :: limbs := by
        rw [subtractDecimalLimbs, add32, unsigned_ok (by omega)]
        rfl
      rw [value_cons, value_cons] at hle
      rw [hstart]
      by_cases hless : a < b + borrow
      · have hle' : value bs + 1 ≤ value as := by
          by_contra hgt
          have hmul := Nat.mul_le_mul_left decimalBase (Nat.le_of_lt_succ (Nat.lt_of_not_le hgt))
          omega
        obtain ⟨limbs, hsub, hlimbs, hvalue⟩ :=
          subtractDecimalLimbs_spec ha.tail hb.tail le_rfl hle'
        refine ⟨(a + decimalBase - (b + borrow)) :: limbs, ?_,
          IsLimbs.cons (by omega) hlimbs, ?_⟩
        · rw [if_pos hless, add32, unsigned_ok (by omega)]
          show sub32 (a + decimalBase) (b + borrow) >>= _ = _
          rw [sub32_ok (by omega), hsub]
          rfl
        · obtain ⟨k, hk⟩ := Nat.exists_eq_add_of_le hle'
          rw [value_cons, value_cons, value_cons, hvalue, hk, Nat.add_sub_cancel_left, Nat.mul_add,
            Nat.mul_add, Nat.mul_one]
          omega
      · have hle' : value bs ≤ value as := by
          by_contra hgt
          have hmul := Nat.mul_le_mul_left decimalBase (Nat.lt_of_not_le hgt)
          rw [Nat.mul_succ] at hmul
          omega
        obtain ⟨limbs, hsub, hlimbs, hvalue⟩ :=
          subtractDecimalLimbs_spec ha.tail hb.tail (Nat.zero_le 1) hle'
        refine ⟨(a - (b + borrow)) :: limbs, ?_, IsLimbs.cons (by omega) hlimbs, ?_⟩
        · rw [if_neg hless, sub32_ok (by omega), hsub]
          rfl
        · obtain ⟨k, hk⟩ := Nat.exists_eq_add_of_le hle'
          rw [value_cons, value_cons, value_cons, hvalue, hk, Nat.add_zero,
            Nat.add_sub_cancel_left, Nat.mul_add]
          omega

/-! ## Schoolbook products -/

theorem multiplyLimb_spec {b : Nat} (hb : b < decimalBase) : ∀ {as low : List Nat} {carry : Nat}
    (limb : Nat) (rest : List Nat), IsLimbs as → IsLimbs low → low.length = as.length →
    carry < decimalBase →
    ∃ low' carry', multiplyLimb b as (low ++ limb :: rest) carry = .ok (low' ++ carry' :: rest) ∧
      IsLimbs low' ∧ carry' < decimalBase ∧ low'.length = as.length ∧
      value low' + decimalBase ^ as.length * carry' = value low + b * value as + carry
  | [], low, carry, limb, rest, _, hlow, hlength, hcarry => by
      have hnil : low = [] := List.eq_nil_of_length_eq_zero hlength
      subst hnil
      have hdigit : toDigit carry = carry := toDigit_of_lt (by rw [decimalBase] at hcarry; omega)
      refine ⟨[], carry, ?_, hlow, hcarry, rfl, by simp⟩
      rw [List.nil_append, multiplyLimb, hdigit, List.nil_append]
  | a :: as, [], _, _, _, _, _, hlength, _ => absurd hlength (by simp)
  | a :: as, l :: low, carry, limb, rest, ha, hlow, hlength, hcarry => by
      have hbase : decimalBase = 1000000000 := rfl
      have ha' := ha.head
      have hl' := hlow.head
      have hproduct : b * a ≤ (decimalBase - 1) * (decimalBase - 1) :=
        Nat.mul_le_mul (by omega) (by omega)
      rw [hbase] at hproduct
      have hcarry' : (b * a + l + carry) / decimalBase < decimalBase := by
        rw [hbase]
        omega
      have hdivision := Nat.div_add_mod (b * a + l + carry) decimalBase
      have hremainder : b * a + l + carry - (b * a + l + carry) / decimalBase * decimalBase =
          (b * a + l + carry) % decimalBase := by
        rw [Nat.mul_comm decimalBase] at hdivision
        omega
      have hsmall := Nat.mod_lt (b * a + l + carry) (show 0 < decimalBase by decide)
      obtain ⟨low', carry', hrec, hlow', hsmall', hlength', hvalue⟩ :=
        multiplyLimb_spec hb limb rest ha.tail hlow.tail (by simpa using hlength) hcarry'
      refine ⟨(b * a + l + carry) % decimalBase :: low', carry', ?_, IsLimbs.cons hsmall hlow',
        hsmall', by simp [hlength'], ?_⟩
      · rw [List.cons_append, multiplyLimb, mul64, unsigned_ok (by omega), ok_bind, add64,
          unsigned_ok (by omega), ok_bind, add64, unsigned_ok (by omega), ok_bind]
        dsimp only
        rw [mul64, unsigned_ok (by rw [hbase]; omega), ok_bind,
          sub64_ok (Nat.div_mul_le_self _ _), ok_bind,
          hremainder, hrec, ok_bind, toDigit_of_lt (by omega)]
        rfl
      · rw [value_cons, value_cons, value_cons, List.length_cons, pow_succ]
        calc (b * a + l + carry) % decimalBase + decimalBase * value low' +
              decimalBase ^ as.length * decimalBase * carry'
            = (b * a + l + carry) % decimalBase +
              decimalBase * (value low' + decimalBase ^ as.length * carry') := by ring
          _ = (decimalBase * ((b * a + l + carry) / decimalBase) +
                (b * a + l + carry) % decimalBase) +
              decimalBase * (value low + b * value as) := by
              rw [hvalue]
              ring
          _ = l + decimalBase * value low + b * (a + decimalBase * value as) + carry := by
              rw [hdivision]
              ring

theorem multiplyLimbs_spec (ha : IsLimbs a) : ∀ {bs low : List Nat},
    IsLimbs bs → IsLimbs low → low.length = a.length →
    ∃ result, multiplyLimbs a bs (low ++ List.replicate bs.length 0) = .ok result ∧
      IsLimbs result ∧ value result = value low + value a * value bs
  | [], low, _, hlow, _ => by
      refine ⟨low, ?_, hlow, by simp⟩
      rw [List.length_nil, List.replicate_zero, List.append_nil, multiplyLimbs]
  | b :: bs, low, hb, hlow, hlength => by
      obtain ⟨low', carry', hrow, hlow', hcarry', hlength', hvalue⟩ :=
        multiplyLimb_spec hb.head 0 (List.replicate bs.length 0) ha hlow hlength
          (show 0 < decimalBase by decide)
      have hrow' : IsLimbs (low' ++ [carry']) :=
        hlow'.append (IsLimbs.cons hcarry' fun l hl => absurd hl List.not_mem_nil)
      obtain ⟨limb, low'', hsplit⟩ : ∃ limb low'', low' ++ [carry'] = limb :: low'' := by
        cases low' with
        | nil => exact ⟨carry', [], rfl⟩
        | cons limb low' => exact ⟨limb, low' ++ [carry'], rfl⟩
      have hlength'' : low''.length = a.length := by
        have h := congrArg List.length hsplit
        rw [List.length_append, List.length_cons, List.length_cons, List.length_nil] at h
        omega
      rw [hsplit] at hrow'
      obtain ⟨result, hrec, hresult, hvalue'⟩ :=
        multiplyLimbs_spec ha hb.tail hrow'.tail hlength''
      refine ⟨limb :: result, ?_, IsLimbs.cons hrow'.head hresult, ?_⟩
      · rw [List.length_cons, List.replicate_succ, multiplyLimbs, hrow, List.append_cons, hsplit]
        show multiplyLimbs a bs (low'' ++ List.replicate bs.length 0) >>= _ = _
        rw [hrec]
        rfl
      · have hfirst : limb + decimalBase * value low'' = value low + b * value a := by
          have h := value_append low' [carry']
          rw [hsplit, value_cons, hlength', value_cons] at h
          rw [h]
          simpa using hvalue
        rw [value_cons, value_cons, hvalue', Nat.mul_add, ← Nat.add_assoc, hfirst]
        ring

theorem multiplyLimbs_eq {b : List Nat} (ha : IsLimbs a) (hb : IsLimbs b) :
    (do let result ← multiplyLimbs a b (List.replicate (a.length + b.length) 0)
        return trimLimbs result) = .ok (limbsOf (value a * value b)) := by
  obtain ⟨result, hmultiply, hresult, hvalue⟩ := multiplyLimbs_spec ha hb
    (isLimbs_replicate a.length) (List.length_replicate)
  rw [value_replicate, Nat.zero_add] at hvalue
  rw [List.replicate_add, hmultiply]
  show Except.ok (trimLimbs result) = _
  rw [trimLimbs_eq hresult, hvalue]

/-! ## Splitting -/

theorem value_take_add (limbs : List Nat) {m : Nat} (n : Nat) (h : m ≤ limbs.length) :
    value (limbs.take (m + n)) =
      value (limbs.take m) + decimalBase ^ m * value ((limbs.drop m).take n) := by
  rw [List.take_add, value_append, List.length_take, Nat.min_eq_left h]

/-- The products with chunks of the longer number, added up. -/
theorem foldlM_chunks {a : List Nat} (ha : IsLimbs a) {size n : Nat} {start : List Nat}
    (hstart : IsLimbs start) (hzero : value start = 0)
    {f : List Nat → Except BignumError (List Nat)}
    (hf : ∀ i, i * size ≤ a.length →
      f ((a.drop (i * size)).take size) =
        .ok (limbsOf (value ((a.drop (i * size)).take size) * n))) :
    ∀ k : Nat, (k - 1) * size ≤ a.length →
      ∃ result, (List.range k).foldlM (fun result i => do
          let offset := i * size
          let part ← f ((a.drop offset).take size)
          addDecimalLimbs result part offset) start = .ok result ∧
        IsLimbs result ∧ value result = value (a.take (k * size)) * n
  | 0, _ => ⟨start, rfl, hstart, by rw [hzero, Nat.zero_mul, List.take_zero]; simp⟩
  | k + 1, hk => by
      rw [Nat.add_sub_cancel] at hk
      have hk' : (k - 1) * size ≤ a.length :=
        (Nat.mul_le_mul_right size (Nat.sub_le k 1)).trans hk
      obtain ⟨result, hrec, hresult, hvalue⟩ := foldlM_chunks ha hstart hzero hf k hk'
      obtain ⟨sum, hadd, hsum, -, hvalue'⟩ := addDecimalLimbs_spec hresult
        (isLimbs_limbsOf (value ((a.drop (k * size)).take size) * n)) (k * size)
      refine ⟨sum, ?_, hsum, ?_⟩
      · rw [List.range_succ, List.foldlM_append, hrec, ok_bind, List.foldlM_cons]
        dsimp only
        rw [hf k hk, ok_bind, hadd, ok_bind]
        rfl
      · rw [hvalue', hvalue, value_limbsOf, Nat.succ_mul, value_take_add a size hk]
        ring

/-- The three partial products of Karatsuba multiplication add up to the product. -/
theorem karatsuba_eq (x a₀ a₁ b₀ b₁ : Nat) :
    a₀ * b₀ + x * ((a₀ + a₁) * (b₀ + b₁) - a₀ * b₀ - a₁ * b₁) + x * x * (a₁ * b₁) =
      (a₀ + x * a₁) * (b₀ + x * b₁) := by
  have hmiddle : (a₀ + a₁) * (b₀ + b₁) - a₀ * b₀ - a₁ * b₁ = a₀ * b₁ + a₁ * b₀ := by
    have hproduct : (a₀ + a₁) * (b₀ + b₁) = a₀ * b₁ + a₁ * b₀ + a₁ * b₁ + a₀ * b₀ := by ring
    rw [hproduct, Nat.add_sub_cancel, Nat.add_sub_cancel]
  rw [hmiddle]
  ring

/-! ## Products of any size -/

/-- The product is the same whichever method is chosen by the sizes. -/
theorem multiplyDecimalLimbs_eq (fuel : Nat) : ∀ {a b : List Nat}, IsLimbs a → IsLimbs b →
    a.length + b.length < fuel →
    multiplyDecimalLimbs fuel a b = .ok (limbsOf (value a * value b)) := by
  induction fuel with
  | zero => exact fun _ _ hfuel => absurd hfuel (Nat.not_lt_zero _)
  | succ fuel ih =>
      have hordered : ∀ {a b : List Nat}, IsLimbs a → IsLimbs b → b.length ≤ a.length →
          a.length + b.length < fuel + 1 →
          multiplyDecimalLimbs (fuel + 1) a b = .ok (limbsOf (value a * value b)) := by
        intro a b ha hb hle hfuel
        rw [multiplyDecimalLimbs, if_neg (Nat.not_lt.mpr hle)]
        dsimp only
        by_cases hzero : b.length = 0
        · rw [if_pos hzero, List.eq_nil_of_length_eq_zero hzero]
          simp
          rfl
        rw [if_neg hzero]
        by_cases hsmall : b.length < karatsubaThreshold
        · rw [if_pos hsmall]
          exact multiplyLimbs_eq ha hb
        rw [if_neg hsmall]
        rw [karatsubaThreshold, not_lt] at hsmall
        by_cases hunbalanced : 2 * b.length ≤ a.length
        · rw [if_pos hunbalanced]
          have hchunk : ∀ i, i * b.length ≤ a.length →
              multiplyDecimalLimbs fuel ((a.drop (i * b.length)).take b.length) b =
                .ok (limbsOf (value ((a.drop (i * b.length)).take b.length) * value b)) := by
            intro i _
            refine ih ((ha.drop _).take _) hb ?_
            have htake := List.length_take_le b.length (a.drop (i * b.length))
            omega
          obtain ⟨k, hk⟩ : ∃ k, (a.length + b.length - 1) / b.length = k := ⟨_, rfl⟩
          have hlower : (k - 1) * b.length ≤ a.length := by
            have hmul := Nat.div_mul_le_self (a.length + b.length - 1) b.length
            rw [hk] at hmul
            rw [Nat.sub_mul]
            omega
          have hupper : a.length ≤ k * b.length := by
            have hlt := Nat.lt_div_mul_add (a := a.length + b.length - 1) (Nat.pos_of_ne_zero hzero)
            rw [hk] at hlt
            omega
          obtain ⟨result, hfold, hresult, hvalue⟩ := foldlM_chunks ha
            (isLimbs_replicate (a.length + b.length)) (value_replicate _)
            (f := fun part => multiplyDecimalLimbs fuel part b) hchunk k hlower
          rw [hk, hfold, ok_bind, trimLimbs_eq hresult, hvalue, List.take_of_length_le hupper]
          rfl
        · rw [if_neg hunbalanced]
          obtain ⟨m, hm⟩ : ∃ m, a.length / 2 = m := ⟨_, rfl⟩
          rw [hm]
          have ham : m ≤ a.length := by omega
          have hbm : m ≤ b.length := by omega
          have hlengths : (a.take m).length = m ∧ (b.take m).length = m ∧
              (a.drop m).length = a.length - m ∧ (b.drop m).length = b.length - m :=
            ⟨by rw [List.length_take]; omega, by rw [List.length_take]; omega, List.length_drop,
              List.length_drop⟩
          obtain ⟨hat, hbt, had, hbd⟩ := hlengths
          have hz0 := ih (ha.take m) (hb.take m) (by omega)
          have hz2 := ih (ha.drop m) (hb.drop m) (by omega)
          obtain ⟨aSum, haAdd, haSum, haLength, haValue⟩ :=
            addDecimalLimbs_spec (ha.take m) (ha.drop m) 0
          obtain ⟨bSum, hbAdd, hbSum, hbLength, hbValue⟩ :=
            addDecimalLimbs_spec (hb.take m) (hb.drop m) 0
          rw [pow_zero, Nat.one_mul] at haValue hbValue
          have hz1 := ih haSum hbSum (by omega)
          rw [haValue, hbValue] at hz1
          have ha' := value_take_drop a ham
          have hb' := value_take_drop b hbm
          generalize value (a.take m) = a₀ at *
          generalize value (a.drop m) = a₁ at *
          generalize value (b.take m) = b₀ at *
          generalize value (b.drop m) = b₁ at *
          have hsum : (a₀ + a₁) * (b₀ + b₁) = a₀ * b₀ + (a₁ * b₁ + (a₀ * b₁ + a₁ * b₀)) := by ring
          obtain ⟨y1, hy1Sub, hy1, hy1Value⟩ := subtractDecimalLimbs_spec
            (isLimbs_limbsOf ((a₀ + a₁) * (b₀ + b₁))) (isLimbs_limbsOf (a₀ * b₀)) (Nat.zero_le 1)
            (by rw [value_limbsOf, value_limbsOf]; omega)
          rw [value_limbsOf, value_limbsOf, Nat.add_zero] at hy1Value
          obtain ⟨x1, hx1Sub, hx1, hx1Value⟩ := subtractDecimalLimbs_spec hy1
            (isLimbs_limbsOf (a₁ * b₁)) (Nat.zero_le 1) (by rw [value_limbsOf, hy1Value]; omega)
          rw [value_limbsOf, Nat.add_zero, hy1Value] at hx1Value
          obtain ⟨r0, hr0Add, hr0, -, hr0Value⟩ := addDecimalLimbs_spec
            (isLimbs_replicate (a.length + b.length)) (isLimbs_limbsOf (a₀ * b₀)) 0
          obtain ⟨r1, hr1Add, hr1, -, hr1Value⟩ := addDecimalLimbs_spec hr0 hx1 m
          obtain ⟨r2, hr2Add, hr2, -, hr2Value⟩ :=
            addDecimalLimbs_spec hr1 (isLimbs_limbsOf (a₁ * b₁)) (2 * m)
          rw [hz0, ok_bind, hz2, ok_bind, haAdd, ok_bind, hbAdd, ok_bind, hz1, ok_bind, hy1Sub,
            ok_bind, hx1Sub, ok_bind, hr0Add, ok_bind, hr1Add, ok_bind, hr2Add, ok_bind,
            trimLimbs_eq hr2, hr2Value, hr1Value, hr0Value, value_replicate, value_limbsOf,
            value_limbsOf, hx1Value, ha', hb', ← karatsuba_eq, pow_zero, Nat.one_mul, Nat.zero_add,
            two_mul, pow_add]
          rfl
      intro a b ha hb hfuel
      obtain hle | hlt := Nat.lt_or_ge a.length b.length
      · have hswap : multiplyDecimalLimbs (fuel + 1) a b = multiplyDecimalLimbs (fuel + 1) b a := by
          rw [multiplyDecimalLimbs, multiplyDecimalLimbs, if_pos hle, if_neg (by omega)]
        rw [hswap, hordered hb ha hle.le (by omega), Nat.mul_comm]
      · exact hordered ha hb hlt hfuel

end Bignum

end MiniDuck
