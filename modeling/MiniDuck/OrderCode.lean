import Mathlib

/-!
# Codes that preserve an order

A code writes values as lists of symbols. It is an `OrderCode` when
comparing two code words, whatever follows them, first compares the
values: then the words can be concatenated, no word is a proper prefix
of another (`OrderCode.eq_of_isPrefix`), and equal words have equal values.
Pairs, delimited lists and optional values of such codes are such codes
again; reversing the order of the symbols reverses the order of the
values (`OrderCode.reverse`).
-/

namespace MiniDuck

universe u v w

variable {σ : Type u} [Ord σ] {α : Type v} {β : Type w}

/-- Bytewise comparison; of two lists of which one is a prefix of the other, the shorter is
smaller. -/
def compareWords (x y : List σ) : Ordering := List.compareLex compare x y

@[simp] theorem compareWords_nil_nil : compareWords ([] : List σ) [] = .eq := rfl

@[simp] theorem compareWords_nil_cons (b : σ) (y : List σ) : compareWords [] (b :: y) = .lt := rfl

@[simp] theorem compareWords_cons_nil (a : σ) (x : List σ) : compareWords (a :: x) [] = .gt := rfl

@[simp] theorem compareWords_cons (a b : σ) (x y : List σ) :
    compareWords (a :: x) (b :: y) = (compare a b).then (compareWords x y) := by
  simp only [compareWords, List.compareLex_cons_cons]

theorem compareWords_self [Std.ReflOrd σ] (x : List σ) : compareWords x x = .eq := by
  induction x with
  | nil => rfl
  | cons a x ih => simp [ih]

theorem eq_of_compareWords [Std.LawfulEqOrd σ] {x y : List σ} (h : compareWords x y = .eq) :
    x = y := by
  induction x generalizing y with
  | nil => cases y with
    | nil => rfl
    | cons b y => simp at h
  | cons a x ih => cases y with
    | nil => simp at h
    | cons b y =>
        rw [compareWords_cons, Ordering.then_eq_eq] at h
        rw [Std.LawfulEqOrd.eq_of_compare h.1, ih h.2]

theorem compareWords_append_self [Std.ReflOrd σ] (p x y : List σ) :
    compareWords (p ++ x) (p ++ y) = compareWords x y := by
  induction p with
  | nil => rfl
  | cons a p ih => simp [ih]

/-- What follows two words of the same length is compared last. -/
theorem compareWords_append : {x y : List σ} → x.length = y.length → ∀ s t,
    compareWords (x ++ s) (y ++ t) = (compareWords x y).then (compareWords s t)
  | [], [], _, _, _ => rfl
  | [], _ :: _, h, _, _ => by simp at h
  | _ :: _, [], h, _, _ => by simp at h
  | a :: x, b :: y, h, s, t => by
      have hrec := compareWords_append (x := x) (y := y) (by simpa using h) s t
      simp [hrec, Ordering.then_assoc]

variable {o : Ordering}

theorem then_of_ne (h : o ≠ .eq) (r : Ordering) : o.then r = o := by
  cases o with
  | lt => rfl
  | eq => exact absurd rfl h
  | gt => rfl

theorem swap_then_of_ne (h : o ≠ .eq) (r : Ordering) : o.swap.then r = o.swap :=
  then_of_ne (fun hs => h (Ordering.swap_eq_eq.mp hs)) r

/-- Comparing two words with anything behind them compares the values first. -/
def OrderCode (encode : α → List σ) (cmp : α → α → Ordering) : Prop :=
  ∀ v w x y, compareWords (encode v ++ x) (encode w ++ y) = (cmp v w).then (compareWords x y)

namespace OrderCode

variable {encode : α → List σ} {cmp : α → α → Ordering}

theorem compare_eq (h : OrderCode encode cmp) (v w : α) :
    compareWords (encode v) (encode w) = cmp v w := by
  simpa using h v w [] []

theorem eq_of_isPrefix [Std.LawfulEqOrd σ] (h : OrderCode encode cmp) {v w : α}
    (hp : encode v <+: encode w) : encode v = encode w := by
  obtain ⟨z, hz⟩ := hp
  have hcmp := h v w z []
  rw [hz, List.append_nil, compareWords_self] at hcmp
  have hnil := eq_of_compareWords (Ordering.then_eq_eq.mp hcmp.symm).2
  rw [← hz, hnil, List.append_nil]

theorem eq_iff [Std.LawfulEqOrd σ] (h : OrderCode encode cmp) {v w : α} :
    encode v = encode w ↔ cmp v w = .eq := by
  rw [← h.compare_eq]
  constructor
  · intro heq
    rw [heq, compareWords_self]
  · exact eq_of_compareWords

theorem unit : OrderCode (fun _ : PUnit => ([] : List σ)) (fun _ _ => .eq) :=
  fun _ _ _ _ => rfl

theorem pair {encode' : β → List σ} {cmp' : β → β → Ordering} (h : OrderCode encode cmp)
    (h' : OrderCode encode' cmp') :
    OrderCode (fun p : α × β => encode p.1 ++ encode' p.2)
      (fun p q => (cmp p.1 q.1).then (cmp' p.2 q.2)) := by
  intro p q x y
  simp only [List.append_assoc]
  rw [h, h', Ordering.then_assoc]

theorem comap (h : OrderCode encode cmp) (f : β → α) :
    OrderCode (fun b => encode (f b)) (fun b c => cmp (f b) (f c)) :=
  fun b c x y => h (f b) (f c) x y

theorem congr {encode' : α → List σ} {cmp' : α → α → Ordering} (h : OrderCode encode cmp)
    (he : ∀ v, encode' v = encode v) (hc : ∀ v w, cmp' v w = cmp v w) :
    OrderCode encode' cmp' := by
  intro v w x y
  rw [he, he, hc]
  exact h v w x y

end OrderCode

/-! ## Lists with a delimiter -/

/-- Lexicographic comparison in which a proper prefix compares as `o` to the longer list. -/
def compareLists (cmp : α → α → Ordering) (o : Ordering) : List α → List α → Ordering
  | [], [] => .eq
  | [], _ :: _ => o
  | _ :: _, [] => o.swap
  | a :: l, b :: m => (cmp a b).then (compareLists cmp o l m)

theorem compareLists_swap (cmp : α → α → Ordering) (o : Ordering) :
    ∀ l m : List α, compareLists (fun a b => (cmp a b).swap) o.swap l m =
      (compareLists cmp o l m).swap
  | [], [] => rfl
  | [], _ :: _ => rfl
  | _ :: _, [] => rfl
  | a :: l, b :: m => by
      simp only [compareLists, Ordering.swap_then, compareLists_swap cmp o l m]

variable {cmp : α → α → Ordering}

theorem compareLists_eq (ho : o ≠ .eq) (h : ∀ a b, cmp a b = .eq → a = b) :
    {l m : List α} → compareLists cmp o l m = .eq → l = m
  | [], [], _ => rfl
  | [], _ :: _, heq => absurd heq ho
  | _ :: _, [], heq => absurd (Ordering.swap_eq_eq.mp heq) ho
  | a :: l, b :: m, heq => by
      obtain ⟨hab, hlm⟩ := Ordering.then_eq_eq.mp heq
      rw [h a b hab, compareLists_eq ho h hlm]

theorem compareLists_map (cmp : α → α → Ordering) (o : Ordering) (f : β → α) :
    ∀ l m : List β, compareLists (fun a b => cmp (f a) (f b)) o l m =
      compareLists cmp o (l.map f) (m.map f)
  | [], [] => rfl
  | [], _ :: _ => rfl
  | _ :: _, [] => rfl
  | a :: l, b :: m => by
      simp only [compareLists, List.map_cons, compareLists_map cmp o f l m]

/-- The delimiter compares as `o` to the first symbol of every word. -/
def Delimits (d : σ) (o : Ordering) (encode : α → List σ) : Prop :=
  ∀ v, ∃ c z, encode v = c :: z ∧ compare d c = o ∧ compare c d = o.swap

namespace OrderCode

variable {encode : α → List σ} {cmp : α → α → Ordering}

theorem list [Std.ReflOrd σ] (h : OrderCode encode cmp) {d : σ} {o : Ordering} (ho : o ≠ .eq)
    (hd : Delimits d o encode) :
    OrderCode (fun l : List α => l.flatMap encode ++ [d]) (compareLists cmp o) := by
  intro l
  induction l with
  | nil =>
      intro m x y
      cases m with
      | nil => simp [compareLists]
      | cons b m =>
          obtain ⟨c, z, hb, hdc, -⟩ := hd b
          simp [compareLists, hb, hdc, then_of_ne ho]
  | cons a l ih =>
      intro m x y
      cases m with
      | nil =>
          obtain ⟨c, z, ha, -, hcd⟩ := hd a
          simp [compareLists, ha, hcd, swap_then_of_ne ho]
      | cons b m =>
          have hrest := ih m x y
          simp only [List.append_assoc] at hrest
          simp only [List.flatMap_cons, List.append_assoc, compareLists]
          rw [h, hrest, Ordering.then_assoc]

/-! ## Optional values -/

end OrderCode

/-- Comparison of optional values in which the missing value compares as `o` to every other. -/
def compareOptions (cmp : α → α → Ordering) (o : Ordering) : Option α → Option α → Ordering
  | none, none => .eq
  | none, some _ => o
  | some _, none => o.swap
  | some a, some b => cmp a b

theorem compareOptions_swap (cmp : α → α → Ordering) (o : Ordering) (v w : Option α) :
    compareOptions (fun a b => (cmp a b).swap) o.swap v w = (compareOptions cmp o v w).swap := by
  cases v <;> cases w <;> rfl

theorem compareOptions_eq (ho : o ≠ .eq) (h : ∀ a b, cmp a b = .eq → a = b) {v w : Option α}
    (heq : compareOptions cmp o v w = .eq) : v = w := by
  cases v with
  | none => cases w with
    | none => rfl
    | some b => exact absurd heq ho
  | some a => cases w with
    | none => exact absurd (Ordering.swap_eq_eq.mp heq) ho
    | some b => rw [h a b heq]

namespace OrderCode

variable {encode : α → List σ} {cmp : α → α → Ordering}

/-- A symbol tells whether there is a value. Behind the symbol for a missing value stands a fixed
word. -/
theorem option [Std.ReflOrd σ] (h : OrderCode encode cmp) {null valid : σ} {o : Ordering}
    (ho : o ≠ .eq) (hnv : compare null valid = o) (hvn : compare valid null = o.swap)
    (z : List σ) :
    OrderCode (fun v : Option α => v.elim (null :: z) fun a => valid :: encode a)
      (compareOptions cmp o) := by
  intro v w x y
  cases v with
  | none => cases w with
    | none => simp [compareOptions, compareWords_append_self]
    | some b => simp [compareOptions, hnv, then_of_ne ho]
  | some a => cases w with
    | none => simp [compareOptions, hvn, swap_then_of_ne ho]
    | some b => simpa [compareOptions] using h a b x y

/-! ## Reversed symbols -/

/-- Two words of which none is a prefix of the other differ at some symbol: what follows them
does not matter, and reversing the symbols reverses the comparison. -/
theorem compareWords_of_not_isPrefix [Std.LawfulEqOrd σ] {f : σ → σ}
    (hf : ∀ a b, compare (f a) (f b) = (compare a b).swap) :
    {p q : List σ} → ¬ p <+: q → ¬ q <+: p → ∀ x y,
      compareWords (p.map f ++ x) (q.map f ++ y) = (compareWords p q).swap
  | [], q, hp, _, _, _ => absurd (List.nil_prefix) hp
  | p, [], _, hq, _, _ => absurd (List.nil_prefix) hq
  | a :: p, b :: q, hp, hq, x, y => by
      by_cases hab : compare a b = .eq
      · obtain rfl := Std.LawfulEqOrd.eq_of_compare hab
        have hrec := compareWords_of_not_isPrefix hf (p := p) (q := q)
          (fun h => hp (List.cons_prefix_cons.mpr ⟨rfl, h⟩))
          (fun h => hq (List.cons_prefix_cons.mpr ⟨rfl, h⟩)) x y
        simpa [hf] using hrec
      · simp [hf, then_of_ne hab, swap_then_of_ne hab]

theorem reverse [Std.LawfulEqOrd σ] (h : OrderCode encode cmp) {f : σ → σ}
    (hf : ∀ a b, compare (f a) (f b) = (compare a b).swap) :
    OrderCode (fun v => (encode v).map f) (fun v w => (cmp v w).swap) := by
  intro v w x y
  show compareWords ((encode v).map f ++ x) ((encode w).map f ++ y) =
    (cmp v w).swap.then (compareWords x y)
  by_cases heq : encode v = encode w
  · rw [heq, h.eq_iff.mp heq, compareWords_append_self]
    rfl
  · have hv : ¬ encode v <+: encode w := fun hp => heq (h.eq_of_isPrefix hp)
    have hw : ¬ encode w <+: encode v := fun hp => heq (h.eq_of_isPrefix hp).symm
    have hcmp : cmp v w ≠ .eq := fun hc => heq (h.eq_iff.mpr hc)
    rw [compareWords_of_not_isPrefix hf hv hw x y, h.compare_eq, swap_then_of_ne hcmp]

end OrderCode

end MiniDuck
