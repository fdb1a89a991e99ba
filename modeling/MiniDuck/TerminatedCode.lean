import MiniDuck.ByteMemory

/-!
# Codes with a mark on the last symbol

Every symbol of a word says whether another one follows (`more`). Of two
such words none goes on where the other ends (`Terminated.eq_of_initial`),
and a reader of a memory finds at most one of them
(`terminated_read_unique`).
-/

namespace MiniDuck

namespace TerminatedCode

universe u

variable {α : Type u} {more : α → Bool} {a : α} {l l' : List α}

/-- All symbols but the last one say that another one follows. -/
def Terminated (more : α → Bool) (l : List α) : Prop :=
  l ≠ [] ∧ ∀ i a, l[i]? = some a → (more a = true ↔ i + 1 < l.length)

theorem terminated_singleton (h : more a = false) : Terminated more [a] := by
  refine ⟨List.cons_ne_nil a [], fun i b hb => ?_⟩
  obtain ⟨hi, rfl⟩ := List.getElem?_eq_some_iff.mp hb
  rw [List.length_singleton] at hi
  obtain rfl : i = 0 := by omega
  simp [h]

theorem Terminated.cons (hl : Terminated more l) (h : more a = true) :
    Terminated more (a :: l) := by
  refine ⟨List.cons_ne_nil a l, fun i b hb => ?_⟩
  cases i with
  | zero =>
      obtain rfl := Option.some.inj hb
      have hpos := List.length_pos_iff.mpr hl.1
      simp only [h, true_iff, List.length_cons]
      omega
  | succ i =>
      rw [hl.2 i b hb, List.length_cons]
      omega

theorem Terminated.eq_of_initial (hl : Terminated more l) (hl' : Terminated more l')
    (h : l <+: l') : l = l' := by
  have hpos := List.length_pos_iff.mpr hl.1
  obtain ⟨a, ha⟩ : ∃ a, l[l.length - 1]? = some a := ⟨_, List.getElem?_eq_getElem (by omega)⟩
  have ha' : l'[l.length - 1]? = some a := by
    obtain ⟨rest, rfl⟩ := h
    rw [List.getElem?_append_left (by omega), ha]
  have hiff := (hl.2 _ a ha).symm.trans (hl'.2 _ a ha')
  exact h.eq_of_length_le (by omega)

variable {m : Memory α} {n n' : Nat}

theorem terminated_read :
    Terminated more (m.read 0 (n + 1)) ↔ (∀ i < n, more (m i) = true) ∧ more (m n) = false := by
  have hget : ∀ i, (m.read 0 (n + 1))[i]? = if i < n + 1 then some (m i) else none := by
    intro i
    rw [Memory.read, List.getElem?_map]
    by_cases h : i < n + 1
    · rw [List.getElem?_range' h, if_pos h, Option.map_some, Nat.zero_add, Nat.one_mul]
    · rw [List.getElem?_eq_none (by rw [List.length_range']; omega), if_neg h, Option.map_none]
  constructor
  · rintro ⟨-, h⟩
    refine ⟨fun i hi => ?_, ?_⟩
    · rw [h i (m i) (by rw [hget, if_pos (by omega)]), Memory.length_read]
      omega
    · have hlast := h n (m n) (by rw [hget, if_pos (by omega)])
      rw [Memory.length_read] at hlast
      rw [← Bool.not_eq_true, hlast]
      omega
  · rintro ⟨hmore, hlast⟩
    refine ⟨fun h => ?_, fun i a ha => ?_⟩
    · simpa using congrArg List.length h
    · rw [hget, Option.ite_none_right_eq_some, Option.some_inj] at ha
      obtain ⟨hi, rfl⟩ := ha
      rw [Memory.length_read]
      rcases Nat.lt_or_ge i n with hlt | hge
      · simp [hmore i hlt, hlt]
      · obtain rfl : i = n := by omega
        simp [hlast]

theorem terminated_read_unique (hn : Terminated more (m.read 0 (n + 1)))
    (hn' : Terminated more (m.read 0 (n' + 1))) : n = n' := by
  obtain ⟨hn, hlast⟩ := terminated_read.mp hn
  obtain ⟨hn', hlast'⟩ := terminated_read.mp hn'
  rcases Nat.lt_trichotomy n n' with h | h | h
  · exact absurd (hlast.symm.trans (hn' n h)) Bool.false_ne_true
  · exact h
  · exact absurd (hlast'.symm.trans (hn n' h)) Bool.false_ne_true

/-- A memory begins with a word within some bound or with as many symbols after which
another one follows. -/
theorem terminated_cases (more : α → Bool) (m : Memory α) (bound : Nat) :
    (∃ n < bound, Terminated more (m.read 0 (n + 1))) ∨ ∀ i < bound, more (m i) = true := by
  induction bound with
  | zero => exact Or.inr fun i hi => absurd hi (Nat.not_lt_zero i)
  | succ bound ih =>
      rcases ih with ⟨n, hn, h⟩ | hall
      · exact Or.inl ⟨n, by omega, h⟩
      · cases hmore : more (m bound) with
        | false => exact Or.inl ⟨bound, by omega, terminated_read.mpr ⟨hall, hmore⟩⟩
        | true =>
            refine Or.inr fun i hi => ?_
            rcases Nat.lt_or_ge i bound with hlt | hge
            · exact hall i hlt
            · rwa [(by omega : i = bound)]

end TerminatedCode

end MiniDuck
