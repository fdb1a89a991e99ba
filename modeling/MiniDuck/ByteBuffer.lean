import Mathlib

/-!
# Writers into a buffer

A `Writer` stores into a buffer of fixed size from a position on and returns
the position behind what it wrote. A store that does not fit fails. `Writes`
says that a writer succeeds whenever its output fits, and that nothing else
changes. A writer may store more than it means to as long as what follows
covers the rest (`Writes.overshoot`).
-/

namespace MiniDuck

universe u

variable {α : Type u}

/-- The buffer with `bytes` at `pos`. -/
def overwrite (buffer : List α) (pos : Nat) (bytes : List α) : List α :=
  buffer.take pos ++ bytes ++ buffer.drop (pos + bytes.length)

def store (bytes : List α) (pos : Nat) (buffer : List α) : Option (List α) :=
  if pos + bytes.length ≤ buffer.length then some (overwrite buffer pos bytes) else none

abbrev Writer (α : Type u) : Type u := Nat → List α → Option (List α × Nat)

def Writes (w : Writer α) (bytes : List α) : Prop :=
  ∀ pos buffer, pos + bytes.length ≤ buffer.length →
    w pos buffer = some (overwrite buffer pos bytes, pos + bytes.length)

namespace Writer

def skip : Writer α := fun pos buffer => some (buffer, pos)

def storeAt (bytes : List α) : Writer α := fun pos buffer =>
  (store bytes pos buffer).map fun buffer => (buffer, pos + bytes.length)

def andThen (w w' : Writer α) : Writer α := fun pos buffer =>
  (w pos buffer).bind fun s => w' s.2 s.1

def all : List (Writer α) → Writer α
  | [] => skip
  | w :: ws => w.andThen (all ws)

/-- Stores `bytes` and goes on behind the first `n` of them. -/
def overshoot (bytes : List α) (n : Nat) (w : Writer α) : Writer α := fun pos buffer =>
  (store bytes pos buffer).bind fun buffer => w (pos + n) buffer

/-- Replaces `n` blocks of `k` bytes each by what `f` makes of them. -/
def mapInPlace (k : Nat) (f : List α → List α) : Nat → Writer α
  | 0 => skip
  | n + 1 => fun pos buffer =>
      (storeAt (f ((buffer.drop pos).take k))).andThen (mapInPlace k f n) pos buffer

end Writer

variable {buffer : List α}

theorem store_of_le {bytes : List α} {pos : Nat} (h : pos + bytes.length ≤ buffer.length) :
    store bytes pos buffer = some (overwrite buffer pos bytes) :=
  if_pos h

@[simp] theorem overwrite_nil (buffer : List α) (pos : Nat) : overwrite buffer pos [] = buffer := by
  simp [overwrite]

theorem length_overwrite {bytes : List α} {pos : Nat} (h : pos + bytes.length ≤ buffer.length) :
    (overwrite buffer pos bytes).length = buffer.length := by
  simp only [overwrite, List.length_append, List.length_take, List.length_drop]
  omega

/-- A second write from the `n`-th byte of the first one on, and at least as far. -/
theorem overwrite_overwrite {x y : List α} {pos n : Nat} (hx : pos + x.length ≤ buffer.length)
    (hn : n ≤ x.length) (hy : x.length ≤ n + y.length) :
    overwrite (overwrite buffer pos x) (pos + n) y = overwrite buffer pos (x.take n ++ y) := by
  have hpos : (buffer.take pos).length = pos := by
    rw [List.length_take]
    omega
  have htake : (overwrite buffer pos x).take (pos + n) = buffer.take pos ++ x.take n := by
    rw [overwrite, List.append_assoc, List.take_append, hpos,
      List.take_of_length_le (by omega), Nat.add_sub_cancel_left,
      List.take_append_of_le_length hn]
  have hdrop : (overwrite buffer pos x).drop (pos + n + y.length) =
      buffer.drop (pos + n + y.length) := by
    rw [overwrite, List.drop_append, List.drop_of_length_le (by
      rw [List.length_append, hpos]
      omega), List.nil_append, List.drop_drop, List.length_append, hpos]
    congr 1
    omega
  have hlen : (x.take n ++ y).length = n + y.length := by
    rw [List.length_append, List.length_take, Nat.min_eq_left hn]
  rw [overwrite, htake, hdrop, overwrite, hlen]
  simp only [List.append_assoc, Nat.add_assoc]

theorem drop_overwrite {bytes : List α} {pos : Nat} (h : pos + bytes.length ≤ buffer.length) :
    (overwrite buffer pos bytes).drop pos = bytes ++ buffer.drop (pos + bytes.length) := by
  have hpos : (buffer.take pos).length = pos := by
    rw [List.length_take]
    omega
  rw [overwrite, List.append_assoc, List.drop_left' hpos]

namespace Writes

variable {w w' : Writer α} {x y : List α}

theorem skip : Writes (Writer.skip : Writer α) [] := by
  intro pos buffer _
  simp [Writer.skip]

theorem storeAt (bytes : List α) : Writes (Writer.storeAt bytes) bytes := by
  intro pos buffer h
  rw [Writer.storeAt, store_of_le h]
  rfl

theorem andThen (h : Writes w x) (h' : Writes w' y) : Writes (w.andThen w') (x ++ y) := by
  intro pos buffer hlen
  rw [List.length_append] at hlen
  have hx : pos + x.length ≤ buffer.length := by omega
  have hy : pos + x.length + y.length ≤ (overwrite buffer pos x).length := by
    rw [length_overwrite hx]
    omega
  rw [Writer.andThen, h pos buffer hx]
  simp only [Option.bind_some]
  rw [h' _ _ hy, overwrite_overwrite hx (Nat.le_refl _) (Nat.le_add_right _ _), List.take_length, List.length_append,
    Nat.add_assoc]

theorem all {β : Type u} {f : β → Writer α} {g : β → List α} (h : ∀ b, Writes (f b) (g b)) :
    (l : List β) → Writes (Writer.all (l.map f)) (l.flatMap g)
  | [] => skip
  | b :: l => (h b).andThen (all h l)

/-- What is stored too much is covered by what follows. -/
theorem overshoot (h : Writes w y) {n : Nat} (hn : n ≤ x.length) (hy : x.length ≤ n + y.length) :
    Writes (Writer.overshoot x n w) (x.take n ++ y) := by
  intro pos buffer hlen
  have htake : (x.take n ++ y).length = n + y.length := by
    rw [List.length_append, List.length_take, Nat.min_eq_left hn]
  rw [htake] at hlen
  have hx : pos + x.length ≤ buffer.length := by omega
  have hw : pos + n + y.length ≤ (overwrite buffer pos x).length := by
    rw [length_overwrite hx]
    omega
  rw [Writer.overshoot, store_of_le hx]
  simp only [Option.bind_some]
  rw [h _ _ hw, overwrite_overwrite hx hn hy, htake, Nat.add_assoc]

end Writes

/-! ## Updates in place -/

/-- The writer replaces `x` by `y`, of the same length. -/
structure Updates (w : Writer α) (x y : List α) : Prop where
  length : y.length = x.length
  run : ∀ pos buffer, pos + x.length ≤ buffer.length → (buffer.drop pos).take x.length = x →
    w pos buffer = some (overwrite buffer pos y, pos + x.length)

namespace Updates

variable {w w' : Writer α} {x x' y y' : List α}

theorem skip : Updates (Writer.skip : Writer α) [] [] :=
  ⟨rfl, fun pos buffer _ _ => by simp [Writer.skip]⟩

theorem andThen (h : Updates w x x') (h' : Updates w' y y') :
    Updates (w.andThen w') (x ++ y) (x' ++ y') := by
  have hx' := h.length
  have hy' := h'.length
  refine ⟨by rw [List.length_append, List.length_append, hx', hy'], fun pos buffer hlen hold => ?_⟩
  rw [List.length_append] at hlen hold
  have hfirst := congrArg (List.take x.length) hold
  rw [List.take_take, Nat.min_eq_left (Nat.le_add_right _ _), List.take_left' rfl] at hfirst
  have hsecond := congrArg (List.drop x.length) hold
  rw [List.drop_take, Nat.add_sub_cancel_left, List.drop_left' rfl, List.drop_drop] at hsecond
  have hfit : pos + x'.length ≤ buffer.length := by omega
  have hrest : (overwrite buffer pos x').drop (pos + x.length) = buffer.drop (pos + x.length) := by
    rw [← List.drop_drop, drop_overwrite hfit, List.drop_left' hx', hx']
  rw [Writer.andThen, h.run pos buffer (by omega) hfirst]
  simp only [Option.bind_some]
  rw [h'.run _ _ (by rw [length_overwrite hfit]; omega) (by rw [hrest, hsecond]), ← hx',
    overwrite_overwrite hfit (Nat.le_refl _) (Nat.le_add_right _ _), List.take_length,
    List.length_append, hx', Nat.add_assoc]

theorem mapInPlace {k : Nat} {f : List α → List α} {g : α → α}
    (hf : ∀ x, x.length = k → f x = x.map g) :
    (n : Nat) → {bytes : List α} → bytes.length = k * n →
    Updates (Writer.mapInPlace k f n) bytes (bytes.map g)
  | 0, bytes, hlen => by
      obtain rfl := List.length_eq_zero_iff.1 hlen
      exact skip
  | n + 1, bytes, hlen => by
      have hk : (bytes.take k).length = k := by
        rw [List.length_take, hlen, Nat.mul_succ]
        omega
      have hn : (bytes.drop k).length = k * n := by
        rw [List.length_drop, hlen, Nat.mul_succ]
        omega
      have hfirst : Updates (fun pos buffer =>
          Writer.storeAt (f ((buffer.drop pos).take k)) pos buffer) (bytes.take k)
          ((bytes.take k).map g) := by
        refine ⟨List.length_map .., fun pos buffer hfit hold => ?_⟩
        rw [hk] at hold
        rw [hold, hf _ hk, Writes.storeAt _ pos buffer (by rwa [List.length_map]), List.length_map]
      have hboth := hfirst.andThen (mapInPlace hf n hn)
      rw [← List.map_append, List.take_append_drop] at hboth
      exact hboth

theorem writes (h : Updates w x y) : Writes (Writer.overshoot x 0 w) y := by
  intro pos buffer hlen
  have hxy := h.length
  rw [hxy] at hlen
  have hold : ((overwrite buffer pos x).drop pos).take x.length = x := by
    rw [drop_overwrite hlen, List.take_left' rfl]
  rw [Writer.overshoot, store_of_le hlen]
  simp only [Option.bind_some]
  rw [Nat.add_zero, h.run pos _ (by rwa [length_overwrite hlen]) hold, ← hxy]
  have hover := overwrite_overwrite (n := 0) (y := y) hlen (Nat.zero_le _) (by omega)
  rw [Nat.add_zero, List.take_zero, List.nil_append] at hover
  rw [hover]

end Updates

end MiniDuck
