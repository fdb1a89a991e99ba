import MiniDuck.OrderCode

/-!
# Bounds cut to a prefix

The bytewise order on words is linear, a word is not above its
extensions, and cutting two words at the same length keeps their order
(`wordLE_take`). A lower bound can therefore be cut anywhere. An upper
bound can be cut if what it bounds is cut at the same length:
`wordLE_cut_of_le` moves such a bound along the order, and
`lt_of_cut_lt` draws the conclusion from two cut words.

A word behind which symbols of the least value are written up to a fixed
length keeps its order up to the length of the word
(`compareWords_padded`).
-/

namespace MiniDuck

universe u

variable {σ : Type u} [Ord σ]

def WordLE (x y : List σ) : Prop := compareWords x y ≠ .gt

instance (x y : List σ) : Decidable (WordLE x y) := inferInstanceAs (Decidable (_ ≠ _))

variable {x : List σ}

theorem wordLE_of_lt {y : List σ} (h : compareWords x y = .lt) : WordLE x y := by
  rw [WordLE, h]
  decide

section Order

variable [Std.TransOrd σ]

theorem compareWords_swap (x y : List σ) : compareWords y x = (compareWords x y).swap :=
  @Std.OrientedCmp.eq_swap _ (List.compareLex (compare : σ → σ → Ordering)) _ y x

theorem wordLE_refl (x : List σ) : WordLE x x := by
  rw [WordLE, compareWords_self]
  decide

variable {x y : List σ}

theorem wordLE_trans {z : List σ} (h : WordLE x y) (h' : WordLE y z) : WordLE x z := by
  have := @Std.TransCmp.isLE_trans _ (List.compareLex (compare : σ → σ → Ordering)) _ x y z
    (Ordering.isLE_iff_ne_gt.mpr h) (Ordering.isLE_iff_ne_gt.mpr h')
  exact Ordering.isLE_iff_ne_gt.mp this

theorem not_wordLE : ¬ WordLE x y ↔ compareWords y x = .lt := by
  rw [WordLE, not_not, compareWords_swap x y, Ordering.swap_eq_lt]

theorem not_lt_iff_wordLE : ¬ compareWords y x = .lt ↔ WordLE x y := by
  rw [← not_wordLE, not_not]

theorem wordLE_total (x y : List σ) : WordLE x y ∨ WordLE y x := by
  by_cases h : WordLE x y
  · exact .inl h
  · exact .inr (wordLE_of_lt (not_wordLE.mp h))

theorem lt_of_lt_of_wordLE {z : List σ} (h : compareWords x y = .lt) (h' : WordLE y z) :
    compareWords x z = .lt := by
  rw [← not_wordLE] at h ⊢
  exact fun hle => h (wordLE_trans h' hle)

theorem lt_of_wordLE_of_lt {z : List σ} (h : WordLE x y) (h' : compareWords y z = .lt) :
    compareWords x z = .lt := by
  rw [← not_wordLE] at h' ⊢
  exact fun hle => h' (wordLE_trans hle h)

theorem wordLE_append_left {p : List σ} : WordLE (p ++ x) (p ++ y) ↔ WordLE x y := by
  rw [WordLE, WordLE, compareWords_append_self]

theorem wordLE_nil (x : List σ) : WordLE [] x := by
  cases x with
  | nil => exact wordLE_refl []
  | cons b x => exact wordLE_of_lt rfl

theorem wordLE_of_isPrefix (h : x <+: y) : WordLE x y := by
  obtain ⟨z, rfl⟩ := h
  have := wordLE_append_left (p := x) (x := []) (y := z)
  rw [List.append_nil] at this
  exact this.mpr (wordLE_nil z)

theorem wordLE_of_take {n : Nat} (h : WordLE x (y.take n)) : WordLE x y :=
  wordLE_trans h (wordLE_of_isPrefix (List.take_prefix n y))

end Order

/-! ## Cuts -/

/-- Cutting two words at the same length keeps their order. -/
theorem wordLE_take : {x y : List σ} → WordLE x y → ∀ n, WordLE (x.take n) (y.take n)
  | x, y, _, 0 => by
      rw [List.take_zero, List.take_zero]
      show Ordering.eq ≠ .gt
      decide
  | [], [], h, n => by simpa using h
  | [], b :: y, _, n + 1 => by
      show Ordering.lt ≠ .gt
      decide
  | _ :: _, [], h, _ => absurd rfl h
  | a :: x, b :: y, h, n + 1 => by
      rw [WordLE, compareWords_cons] at h
      rw [List.take_succ_cons, List.take_succ_cons, WordLE, compareWords_cons]
      cases hab : compare a b with
      | lt => simp
      | eq =>
          rw [hab] at h
          exact wordLE_take (x := x) (y := y) h n
      | gt => simp [hab] at h

theorem wordLE_cut {t : List σ} (h : WordLE x t) : WordLE (x.take t.length) t := by
  have := wordLE_take h t.length
  rwa [List.take_length] at this

theorem cut_of_wordLE {t : List σ} (h : WordLE t x) : WordLE t (x.take t.length) := by
  have := wordLE_take h t.length
  rwa [List.take_length] at this

/-- A cut bound stays a bound if it is cut further. -/
theorem wordLE_cut_of_isPrefix {s t : List σ} (hst : s <+: t) (h : WordLE (x.take t.length) t) :
    WordLE (x.take s.length) s := by
  have hcut := wordLE_take h s.length
  rwa [List.take_take, Nat.min_eq_left hst.length_le, ← List.prefix_iff_eq_take.mp hst] at hcut

/-- Two words whose cuts are in order are in order. -/
theorem lt_of_cut_lt [Std.TransOrd σ] {y : List σ} {n : Nat}
    (h : compareWords (x.take n) (y.take n) = .lt) : compareWords x y = .lt := by
  rw [← not_wordLE] at h ⊢
  exact fun hle => h (wordLE_take hle n)

section Cuts

variable [Std.TransOrd σ] [Std.LawfulEqOrd σ]

theorem wordLE_antisymm {x y : List σ} (h : WordLE x y) (h' : WordLE y x) : x = y := by
  refine eq_of_compareWords ?_
  rw [WordLE, compareWords_swap x y, Ne, Ordering.swap_eq_gt] at h'
  cases hxy : compareWords x y with
  | lt => exact absurd hxy h'
  | eq => rfl
  | gt => exact absurd hxy h

/-- What is below a cut bound is below every larger word that does not extend the bound. -/
theorem wordLE_of_cut {x s t : List σ} (h : WordLE (x.take s.length) s) (hst : WordLE s t)
    (hne : ¬ s <+: t) : WordLE x t := by
  by_contra hx
  have htx := wordLE_of_lt (not_wordLE.mp hx)
  have hle : WordLE (t.take s.length) s := wordLE_trans (wordLE_take htx s.length) h
  have heq : s = t.take s.length := wordLE_antisymm (cut_of_wordLE hst) hle
  exact hne (List.prefix_iff_eq_take.mpr heq)

/-- A word above `t` and longer than it is above `t` followed by the least symbol. -/
theorem wordLE_append_least {x t : List σ} {z : σ} (hz : ∀ a, compare z a ≠ .gt)
    (h : WordLE t x) (hlen : t.length < x.length) : WordLE (t ++ [z]) x := by
  by_contra hx
  have hlt := wordLE_of_lt (not_wordLE.mp hx)
  have hle : WordLE (x.take t.length) t := by
    have := wordLE_take hlt t.length
    rwa [List.take_left'] at this
    rfl
  have heq : t = x.take t.length := wordLE_antisymm (cut_of_wordLE h) hle
  obtain ⟨r, rfl⟩ := List.prefix_iff_eq_take.mpr heq
  cases r with
  | nil => simp at hlen
  | cons a r =>
      refine hx (wordLE_append_left.mpr ?_)
      rw [WordLE, compareWords_cons]
      cases ha : compare z a with
      | lt => simp
      | eq =>
          rw [Ordering.eq_then]
          exact wordLE_nil r
      | gt => exact absurd ha (hz a)

end Cuts

/-! ## Padded words -/

/-- The first `n` symbols, with `z` behind a shorter word. -/
def padded (z : σ) (n : Nat) (x : List σ) : List σ := x.take n ++ List.replicate (n - x.length) z

omit [Ord σ] in
@[simp] theorem length_padded (z : σ) (n : Nat) (x : List σ) : (padded z n x).length = n := by
  rw [padded, List.length_append, List.length_take, List.length_replicate]
  omega

theorem wordLE_replicate {z : σ} (hz : ∀ a, compare z a ≠ .gt) :
    ∀ {n : Nat} {y : List σ}, y.length = n → WordLE (List.replicate n z) y
  | _, [], rfl => fun h => nomatch h
  | _, b :: y, rfl => by
      have hrec := wordLE_replicate hz (y := y) rfl
      rw [List.length_cons, List.replicate_succ, WordLE, compareWords_cons]
      cases hb : compare z b with
      | lt => simp
      | eq => exact hrec
      | gt => exact absurd hb (hz b)

theorem compareWords_padded [Std.TransOrd σ] {z : σ} (hz : ∀ a, compare z a ≠ .gt) :
    ∀ {n : Nat} {x y : List σ}, x.length ≤ n → y.length ≤ n →
      (compareWords (x ++ List.replicate (n - x.length) z)
        (y ++ List.replicate (n - y.length) z)).then (compare x.length y.length) =
      compareWords x y
  | n, [], [], _, _ => by simp [compareWords_self]
  | 0, [], _ :: _, _, hy => by simp at hy
  | n + 1, [], b :: y, _, hy => by
      have hle : WordLE (List.replicate (n + 1) z)
          (b :: y ++ List.replicate (n + 1 - (b :: y).length) z) :=
        wordLE_replicate hz (by simp only [List.length_append, List.length_replicate]; omega)
      have hlt : compare 0 (b :: y).length = .lt := Nat.compare_eq_lt.mpr (Nat.zero_lt_succ _)
      rw [List.nil_append, List.length_nil, Nat.sub_zero, hlt, compareWords_nil_cons]
      cases hcmp : compareWords (List.replicate (n + 1) z)
        (b :: y ++ List.replicate (n + 1 - (b :: y).length) z) with
      | lt => rfl
      | eq => rfl
      | gt => exact absurd hcmp hle
  | 0, _ :: _, _, hx, _ => by simp at hx
  | n + 1, a :: x, [], hx, _ => by
      have hle : WordLE (List.replicate (n + 1) z)
          (a :: x ++ List.replicate (n + 1 - (a :: x).length) z) :=
        wordLE_replicate hz (by simp only [List.length_append, List.length_replicate]; omega)
      have hgt : compare (a :: x).length 0 = .gt := Nat.compare_eq_gt.mpr (Nat.zero_lt_succ _)
      rw [List.nil_append, List.length_nil, Nat.sub_zero, hgt, compareWords_cons_nil,
        compareWords_swap]
      cases hcmp : compareWords (List.replicate (n + 1) z)
        (a :: x ++ List.replicate (n + 1 - (a :: x).length) z) with
      | lt => rfl
      | eq => rfl
      | gt => exact absurd hcmp hle
  | n + 1, a :: x, b :: y, hx, hy => by
      have hrec := compareWords_padded hz (n := n) (x := x) (y := y)
        (by simpa using hx) (by simpa using hy)
      have hlen : compare (a :: x).length (b :: y).length = compare x.length y.length := by
        simp [Nat.compare_eq_ite_lt]
      rw [hlen, List.length_cons, List.length_cons, Nat.add_sub_add_right, Nat.add_sub_add_right,
        List.cons_append, List.cons_append, compareWords_cons, compareWords_cons,
        Ordering.then_assoc, hrec]

end MiniDuck
