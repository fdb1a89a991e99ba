import MiniDuck.ByteMemory

/-!
# Checked access

The first `size` cells of a memory are a buffer, and an access outside of
it has no result. Code that runs through `load` and `store` and returns
a result has therefore kept to its buffer.
-/

namespace MiniDuck

namespace Memory

universe u

variable {α : Type u} {m m' : Memory α} {size i pos : Nat} {a : α}

/-- The cell `i` of a buffer. -/
def load (m : Memory α) (size i : Nat) : Option α := if i < size then some (m i) else none

/-- Replaces the cell `i` of a buffer. -/
def store (m : Memory α) (size i : Nat) (a : α) : Option (Memory α) :=
  if i < size then some (Function.update m i a) else none

theorem load_of_lt (h : i < size) : m.load size i = some (m i) := if_pos h

theorem store_of_lt (h : i < size) : m.store size i a = some (Function.update m i a) := if_pos h

theorem write_singleton (m : Memory α) (pos : Nat) (a : α) :
    m.write pos [a] = Function.update m pos a := by
  funext i
  rw [Function.update_apply, write]
  rcases Nat.lt_trichotomy i pos with h | h | h
  · rw [if_neg (by omega), if_neg (by omega)]
  · rw [if_pos (by omega), if_pos h, h, Nat.sub_self, List.getD_cons_zero]
  · rw [if_pos (by omega), if_neg (by omega), List.getD_eq_getElem?_getD,
      List.getElem?_eq_none (by rw [List.length_singleton]; omega), Option.getD_none]

theorem foldlM_store (m : Memory α) (f : Nat → α) {n : Nat} (h : pos + n ≤ size) :
    (List.range n).foldlM (fun m k => m.store size (pos + k) (f k)) m =
      some (m.write pos ((List.range n).map f)) := by
  induction n with
  | zero => simp
  | succ n ih =>
      rw [List.range_succ, List.foldlM_append, ih (by omega)]
      have hlen : ((List.range n).map f).length = n := by simp
      simp only [Option.bind_eq_bind, Option.bind_some, List.foldlM_cons, List.foldlM_nil,
        store_of_lt (by omega : pos + n < size), List.map_append, List.map_singleton]
      rw [← write_append, hlen, write_singleton]
      rfl

end Memory

end MiniDuck
