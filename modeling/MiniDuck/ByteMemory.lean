import Mathlib

/-!
# Memory

The contents of every address, for code that writes through pointers into
a buffer it has checked beforehand. `read` is the run of cells from an
address on. What has been written is read back (`read_write`), what lies
apart from it has not changed (`read_write_of_le`, `read_write_of_ge`),
and a known run gives its parts (`read_middle`).
-/

namespace MiniDuck

universe u

abbrev Memory (α : Type u) : Type u := Nat → α

namespace Memory

variable {α : Type u}

/-- The `n` cells from `pos` on. -/
def read (m : Memory α) (pos n : Nat) : List α := (List.range' pos n).map m

/-- Stores the values from `pos` on. -/
def write (m : Memory α) (pos : Nat) (values : List α) : Memory α := fun i =>
  if pos ≤ i then values.getD (i - pos) (m i) else m i

variable {m : Memory α} {pos start n : Nat} {values x y z : List α}

@[simp] theorem length_read (m : Memory α) (pos n : Nat) : (m.read pos n).length = n := by
  simp [read]

@[simp] theorem write_nil (m : Memory α) (pos : Nat) : m.write pos [] = m := by
  funext i
  rw [write, List.getD_nil]
  split <;> rfl

@[simp] theorem read_zero (m : Memory α) (pos : Nat) : m.read pos 0 = [] := rfl

theorem read_add (m : Memory α) (pos a b : Nat) :
    m.read pos (a + b) = m.read pos a ++ m.read (pos + a) b := by
  rw [read, read, read, ← List.map_append, List.range'_append_1]

theorem read_congr {m' : Memory α} (h : ∀ i, pos ≤ i → i < pos + n → m' i = m i) :
    m'.read pos n = m.read pos n := by
  refine List.map_congr_left fun i hi => ?_
  rw [List.mem_range'_1] at hi
  exact h i hi.1 hi.2

theorem read_write (h : values.length = n) : (m.write pos values).read pos n = values := by
  refine List.ext_getElem (by rw [length_read, h]) fun i hi hi' => ?_
  simp only [read, List.getElem_map, List.getElem_range', Nat.one_mul, write]
  rw [if_pos (Nat.le_add_right ..), Nat.add_sub_cancel_left, List.getD_eq_getElem?_getD,
    List.getElem?_eq_getElem hi', Option.getD_some]

theorem read_write_of_le (h : pos + n ≤ start) :
    (m.write start values).read pos n = m.read pos n :=
  read_congr fun i _ hi => if_neg (by omega)

theorem read_write_of_ge (h : start + values.length ≤ pos) :
    (m.write start values).read pos n = m.read pos n := by
  refine read_congr fun i hi _ => ?_
  rw [write, if_pos (by omega), List.getD_eq_getElem?_getD, List.getElem?_eq_none (by omega),
    Option.getD_none]

theorem write_append (m : Memory α) (pos : Nat) (x y : List α) :
    (m.write pos x).write (pos + x.length) y = m.write pos (x ++ y) := by
  funext i
  simp only [write, List.getD_eq_getElem?_getD]
  by_cases hpos : pos ≤ i
  · by_cases hx : i - pos < x.length
    · rw [if_neg (by omega), if_pos hpos, if_pos hpos, List.getElem?_append_left hx,
        List.getElem?_eq_getElem hx, Option.getD_some]
    · have hsub : i - (pos + x.length) = i - pos - x.length := by omega
      rw [if_pos (by omega), if_pos hpos, if_pos hpos, List.getElem?_append_right (by omega), hsub,
        List.getElem?_eq_none (by omega : x.length ≤ i - pos), Option.getD_none]
  · rw [if_neg (by omega), if_neg hpos, if_neg hpos]

theorem read_middle (h : m.read pos n = x ++ y ++ z) :
    m.read (pos + x.length) y.length = y := by
  have hn : n = x.length + y.length + z.length := by
    rw [← length_read m pos n, h, List.length_append, List.length_append]
  rw [hn, read_add, read_add, List.append_assoc, List.append_assoc] at h
  have htail := (List.append_inj h (length_read ..)).2
  exact (List.append_inj htail (length_read ..)).1

theorem read_sub {total k : Nat} (h : k + n ≤ total) :
    m.read (pos + k) n = ((m.read pos total).drop k).take n := by
  obtain ⟨rest, rfl⟩ := Nat.exists_eq_add_of_le h
  rw [Nat.add_assoc, read_add, read_add, List.drop_left' (length_read ..),
    List.take_left' (length_read ..)]

theorem read_shift (m : Memory α) (start pos n : Nat) :
    Memory.read (fun i => m (start + i)) pos n = m.read (start + pos) n := by
  rw [read, read, ← List.map_add_range', List.map_map]
  rfl

end Memory

theorem take_drop_flatMap {α β : Type u} {f : β → List α} {n : Nat} (hf : ∀ b, (f b).length = n) :
    {l : List β} → {i : Nat} → {b : β} → l[i]? = some b → ((l.flatMap f).drop (n * i)).take n = f b
  | [], i, b, h => by simp at h
  | c :: l, 0, b, h => by
      obtain rfl : c = b := by simpa using h
      rw [Nat.mul_zero, List.drop_zero, List.flatMap_cons, List.take_left' (hf c)]
  | c :: l, i + 1, b, h => by
      rw [List.getElem?_cons_succ] at h
      rw [List.flatMap_cons, Nat.mul_succ, Nat.add_comm, ← List.drop_drop, List.drop_left' (hf c),
        take_drop_flatMap hf h]

end MiniDuck
