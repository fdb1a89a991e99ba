import Mathlib

/-!
# Runs

A list of values, each with the number of rows it stands for. `expand`
gives the rows, and `start` the row a run begins at: within a run all
rows are its value (`expand_run`), and the next one begins where it ends
(`start_succ`). A row lies in a run or behind all of them
(`lt_length_of_lt`).

Rows that may be missing are restored by any values in their place
(`RestoresRows`).
-/

namespace MiniDuck

universe u

variable {α : Type u}

namespace RunLength

def expand (runs : List (α × Nat)) : List α := runs.flatMap fun run => List.replicate run.2 run.1

def rowCount (runs : List (α × Nat)) : Nat := (runs.map Prod.snd).sum

def start (runs : List (α × Nat)) (i : Nat) : Nat := rowCount (runs.take i)

@[simp] theorem expand_nil : expand ([] : List (α × Nat)) = [] := rfl

@[simp] theorem expand_cons (run : α × Nat) (runs : List (α × Nat)) :
    expand (run :: runs) = List.replicate run.2 run.1 ++ expand runs := by
  rw [expand, List.flatMap_cons]
  rfl

@[simp] theorem expand_append (runs runs' : List (α × Nat)) :
    expand (runs ++ runs') = expand runs ++ expand runs' := List.flatMap_append

@[simp] theorem rowCount_nil : rowCount ([] : List (α × Nat)) = 0 := rfl

@[simp] theorem rowCount_cons (run : α × Nat) (runs : List (α × Nat)) :
    rowCount (run :: runs) = run.2 + rowCount runs := by
  rw [rowCount, List.map_cons, List.sum_cons]
  rfl

@[simp] theorem rowCount_append (runs runs' : List (α × Nat)) :
    rowCount (runs ++ runs') = rowCount runs + rowCount runs' := by
  rw [rowCount, List.map_append, List.sum_append]
  rfl

@[simp] theorem length_expand (runs : List (α × Nat)) :
    (expand runs).length = rowCount runs := by
  induction runs with
  | nil => rfl
  | cons run runs ih =>
      rw [expand_cons, List.length_append, List.length_replicate, ih, rowCount_cons]

variable {runs : List (α × Nat)} {run : α × Nat} {i : Nat}

theorem start_succ (h : runs[i]? = some run) : start runs (i + 1) = start runs i + run.2 := by
  rw [start, start, List.take_add_one, h, rowCount_append]
  simp

theorem start_le (runs : List (α × Nat)) (i : Nat) : start runs i ≤ rowCount runs := by
  have h := congrArg rowCount (List.take_append_drop i runs)
  rw [rowCount_append] at h
  rw [start]
  omega

theorem start_of_length_le (h : runs.length ≤ i) : start runs i = rowCount runs := by
  rw [start, List.take_of_length_le h]

/-- The rows of a run, from one of them on. -/
theorem expand_run (h : runs[i]? = some run) {o n : Nat} (hn : o + n ≤ run.2) :
    ((expand runs).drop (start runs i + o)).take n = List.replicate n run.1 := by
  have hsplit : expand runs = expand (runs.take i) ++
      (List.replicate run.2 run.1 ++ expand (runs.drop (i + 1))) := by
    conv_lhs => rw [← List.take_append_drop i runs, List.drop_eq_getElem?_toList_append, h]
    simp
  rw [hsplit, start, ← length_expand, List.drop_length_add_append,
    List.drop_append_of_le_length (by rw [List.length_replicate]; omega), List.drop_replicate,
    List.take_append_of_le_length (by rw [List.length_replicate]; omega), List.take_replicate,
    Nat.min_eq_left (by omega)]

theorem getElem?_expand_run (h : runs[i]? = some run) {o : Nat} (ho : o < run.2) :
    (expand runs)[start runs i + o]? = some run.1 := by
  have hrow := congrArg (fun l => l[0]?) (expand_run h (n := 1) (by omega : o + 1 ≤ run.2))
  simpa [List.getElem?_take, List.getElem?_drop] using hrow

/-- The run before a row is not the last one. -/
theorem lt_length_of_lt {p : Nat} (hp : start runs i ≤ p) (hlt : p < rowCount runs) :
    i < runs.length := by
  by_contra hge
  rw [start_of_length_le (Nat.not_lt.mp hge)] at hp
  omega

/-! ## Restored rows -/

def RestoresRows (values : List α) (rows : List (Option α)) : Prop :=
  List.Forall₂ (fun value row => ∀ v, row = some v → value = v) values rows

variable {rows : List (Option α)}

theorem RestoresRows.append {x y : List α} {rows' : List (Option α)} (h : RestoresRows x rows)
    (h' : RestoresRows y rows') : RestoresRows (x ++ y) (rows ++ rows') := List.rel_append h h'

theorem RestoresRows.length {x : List α} (h : RestoresRows x rows) :
    x.length = rows.length := List.Forall₂.length_eq h

theorem restores_replicate {value : α} (h : ∀ row ∈ rows, row = none) :
    RestoresRows (List.replicate rows.length value) rows := by
  induction rows with
  | nil => exact .nil
  | cons row rows ih =>
      refine .cons (fun v hv => ?_) (ih fun row hrow => h row (List.mem_cons_of_mem _ hrow))
      rw [h row List.mem_cons_self] at hv
      cases hv

theorem RestoresRows.getElem? {values : List α} (h : RestoresRows values rows) {p : Nat} {v : α}
    (hv : rows[p]? = some (some v)) : values[p]? = some v := by
  induction h generalizing p with
  | nil => simp at hv
  | cons hhead _ ih =>
      cases p with
      | zero => exact congrArg some (hhead v (Option.some.inj hv))
      | succ p => exact ih hv

theorem RestoresRows.split {x y : List α} (h : RestoresRows (x ++ y) rows) :
    ∃ rows₁ rows₂, rows = rows₁ ++ rows₂ ∧ RestoresRows x rows₁ ∧ RestoresRows y rows₂ := by
  have htake := List.forall₂_take x.length h
  have hdrop := List.forall₂_drop x.length h
  rw [List.take_left] at htake
  rw [List.drop_left] at hdrop
  exact ⟨_, _, (List.take_append_drop ..).symm, htake, hdrop⟩

theorem restores_parts : {parts : List (List (α × Nat))} → {rows : List (Option α)} →
    RestoresRows (expand parts.flatten) rows → ∃ rowParts : List (List (Option α)),
      rowParts.flatten = rows ∧
        List.Forall₂ (fun part rows => RestoresRows (expand part) rows) parts rowParts
  | [], rows, h => by
      cases h
      exact ⟨[], rfl, .nil⟩
  | part :: parts, rows, h => by
      rw [List.flatten_cons, expand_append] at h
      obtain ⟨rows₁, rows₂, rfl, hpart, hrest⟩ := h.split
      obtain ⟨rowParts, rfl, hparts⟩ := restores_parts hrest
      exact ⟨rows₁ :: rowParts, rfl, .cons hpart hparts⟩

end RunLength

end MiniDuck
