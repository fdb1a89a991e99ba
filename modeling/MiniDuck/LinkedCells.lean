import Mathlib

/-!
# Doubly linked cells in a heap

Cells with a `prev` and a `next` pointer, the pointer writes that link,
unlink and move them, and the list that a chain of cells stands for.

`Seg h p a l q b` reads: from pointer `a`, entered from `p`, the cells
of `l` follow each other and end in pointer `b`, left from `q`. Segments
compose (`seg_append`) and depend only on their own cells
(`Seg.congr`), so each pointer write is checked on the one or two cells
it touches. `Chain h a l` is a whole chain without repeated addresses;
one lemma for each operation says which list it leads to.
-/

namespace MiniDuck

universe u v

structure Cell (A : Type u) (β : Type v) where
  prev : Option A
  next : Option A
  val : β
  deriving Repr, DecidableEq

abbrev Heap (A : Type u) (β : Type v) := A → Option (Cell A β)

namespace Heap

variable {A : Type u} {β : Type v} [DecidableEq A]

/-- Changes the cell behind a pointer; a null pointer changes nothing. -/
def modify (h : Heap A β) (p : Option A) (f : Cell A β → Cell A β) : Heap A β :=
  fun a => if p = some a then (h a).map f else h a

def setNext (h : Heap A β) (p next : Option A) : Heap A β :=
  h.modify p fun c => { c with next := next }

def setPrev (h : Heap A β) (p prev : Option A) : Heap A β :=
  h.modify p fun c => { c with prev := prev }

def modifyVal (h : Heap A β) (a : A) (f : β → β) : Heap A β :=
  h.modify (some a) fun c => { c with val := f c.val }

def alloc (h : Heap A β) (a : A) (c : Cell A β) : Heap A β :=
  Function.update h a (some c)

/-- Makes the neighbours of a cell point past it. The cell keeps its own pointers. -/
def unlink (h : Heap A β) (a : A) : Heap A β :=
  match h a with
  | none => h
  | some c => (h.setNext c.prev c.next).setPrev c.next c.prev

/-- Puts the new cell `x` directly behind `r`. -/
def insertAfter (h : Heap A β) (r x : A) (w : β) : Heap A β :=
  match h r with
  | none => h
  | some c =>
      ((h.alloc x ⟨some r, c.next, w⟩).setPrev c.next (some x)).setNext (some r) (some x)

/-- Copies the head cell `r` to the new cell `x` and makes its successor point back to it. -/
def relocateHead (h : Heap A β) (r x : A) (f : β → β) : Heap A β :=
  match h r with
  | none => h
  | some c => (h.alloc x ⟨c.prev, c.next, f c.val⟩).setPrev c.next (some x)

/-- Puts the new cell `x` in front of the chain that begins at `a`. -/
def pushFront (h : Heap A β) (a : Option A) (x : A) (w : β) : Heap A β :=
  (h.alloc x ⟨none, a, w⟩).setPrev a (some x)

/-- The cells met from a pointer on, at most `fuel` of them. -/
def toList (h : Heap A β) : Nat → Option A → List (A × β)
  | 0, _ => []
  | _, none => []
  | fuel + 1, some a =>
      match h a with
      | none => []
      | some c => (a, c.val) :: toList h fuel c.next

variable {h : Heap A β}

theorem modify_of_ne {p : Option A} {f : Cell A β → Cell A β} {a : A} (hne : p ≠ some a) :
    h.modify p f a = h a := by
  simp [modify, hne]

variable {c : Cell A β}

theorem modify_self {f : Cell A β → Cell A β} {a : A} (hc : h a = some c) :
    h.modify (some a) f a = some (f c) := by
  simp [modify, hc]

variable {f : β → β}

theorem modifyVal_cancel {a : A} {g : β → β} (hc : h a = some c) (hfg : g (f c.val) = c.val) :
    (h.modifyVal a f).modifyVal a g = h := by
  have hf : h.modifyVal a f a = some { c with val := f c.val } := modify_self hc
  funext b
  by_cases hb : b = a
  · subst hb
    rw [modifyVal, modify_self hf, hc, hfg]
  · rw [modifyVal, modify_of_ne (by simpa using Ne.symm hb), modifyVal,
      modify_of_ne (by simpa using Ne.symm hb)]

theorem alloc_self {a : A} : h.alloc a c a = some c := by
  simp [alloc]

theorem alloc_of_ne {a b : A} (hne : b ≠ a) : h.alloc a c b = h b := by
  simp [alloc, hne]

/-! ## Segments -/

/-- The cells of `l` lie between the pointers `(p, a)` and `(q, b)`. -/
def Seg (h : Heap A β) : Option A → Option A → List (A × β) → Option A → Option A → Prop
  | p, a, [], q, b => p = q ∧ a = b
  | p, a, (i, v) :: l, q, b =>
      a = some i ∧ ∃ n, h i = some ⟨p, n, v⟩ ∧ Seg h (some i) n l q b

omit [DecidableEq A] in
theorem seg_append {h : Heap A β} {q b : Option A} {l₂ : List (A × β)} :
    {l₁ : List (A × β)} → {p a : Option A} →
    (Seg h p a (l₁ ++ l₂) q b ↔ ∃ q' b', Seg h p a l₁ q' b' ∧ Seg h q' b' l₂ q b)
  | [], p, a => by simp [Seg]
  | (i, v) :: l₁, p, a => by
      simp only [List.cons_append, Seg]
      constructor
      · rintro ⟨rfl, n, hi, hs⟩
        obtain ⟨q', b', h1, h2⟩ := seg_append.mp hs
        exact ⟨q', b', ⟨rfl, n, hi, h1⟩, h2⟩
      · rintro ⟨q', b', ⟨rfl, n, hi, h1⟩, h2⟩
        exact ⟨rfl, n, hi, seg_append.mpr ⟨q', b', h1, h2⟩⟩

omit [DecidableEq A] in
theorem Seg.congr {h h' : Heap A β} {q b : Option A} :
    {l : List (A × β)} → {p a : Option A} → (∀ i ∈ l.map Prod.fst, h' i = h i) →
    Seg h p a l q b → Seg h' p a l q b
  | [], _, _, _, hs => hs
  | (i, v) :: l, p, a, he, hs => by
      obtain ⟨rfl, n, hi, hs⟩ := hs
      refine ⟨rfl, n, ?_, hs.congr fun j hj => he j ?_⟩
      · rw [he i (by simp), hi]
      · simp only [List.map_cons, List.mem_cons]
        exact Or.inr hj

variable {l : List (A × β)} {a : Option A}

/-- Where a segment is entered from may change together with the back pointer of its first
cell. -/
theorem Seg.setPrev {p q b : Option A} (p' : Option A) (hnd : (l.map Prod.fst).Nodup)
    (hs : Seg h p a l q none) (hb : b = a) : ∃ q', Seg (h.setPrev b p') p' a l q' none := by
  cases l with
  | nil =>
      obtain ⟨-, ha⟩ := hs
      exact ⟨p', rfl, ha⟩
  | cons x l =>
      obtain ⟨i, v⟩ := x
      obtain ⟨rfl, n, hi, hs⟩ := hs
      subst hb
      refine ⟨q, rfl, n, modify_self hi, hs.congr fun j hj => ?_⟩
      refine modify_of_ne fun hij => ?_
      rw [Option.some_inj] at hij
      subst hij
      exact (List.nodup_cons.mp hnd).1 hj

omit [DecidableEq A] in
/-- The head of a segment is the pointer it starts from. -/
theorem Seg.head_mem {h : Heap A β} {l : List (A × β)} {p q b : Option A} {i : A}
    (hs : Seg h p (some i) l q b) (hb : b ≠ some i) : i ∈ l.map Prod.fst := by
  cases l with
  | nil => exact absurd hs.2.symm hb
  | cons x l =>
      obtain ⟨hx, -⟩ := hs
      simp only [Option.some_inj] at hx
      simp [hx]

/-! ## Chains -/

/-- The chain from pointer `a` stands for the list `l`. -/
structure Chain (h : Heap A β) (a : Option A) (l : List (A × β)) : Prop where
  seg : ∃ q, Seg h none a l q none
  nodup : (l.map Prod.fst).Nodup

omit [DecidableEq A] in
/-- A chain whose addresses lie below a bound is no longer than the bound. -/
theorem Chain.length_le {h : Heap Nat β} {a : Option Nat} {l : List (Nat × β)} {bound : Nat}
    (hc : Chain h a l) (hb : ∀ i ∈ l.map Prod.fst, i < bound) : l.length ≤ bound := by
  have hsub : l.map Prod.fst ⊆ List.range bound := fun i hi => List.mem_range.mpr (hb i hi)
  simpa using (List.subperm_of_subset hc.nodup hsub).length_le

omit [DecidableEq A] in
/-- Walking the chain gives its list, with fuel for every cell. -/
theorem Seg.toList {h : Heap A β} {q : Option A} :
    {l : List (A × β)} → {p a : Option A} → {fuel : Nat} → l.length ≤ fuel →
    Seg h p a l q none → h.toList fuel a = l
  | [], _, _, fuel, _, hs => by
      obtain ⟨-, rfl⟩ := hs
      cases fuel <;> rfl
  | (i, v) :: l, _, _, 0, hf, _ => by simp at hf
  | (i, v) :: l, _, _, fuel + 1, hf, hs => by
      obtain ⟨rfl, n, hi, hs⟩ := hs
      have hl : l.length ≤ fuel := by simpa using hf
      simp [Heap.toList, hi, hs.toList hl]

omit [DecidableEq A] in
theorem Chain.toList {h : Heap A β} {a : Option A} {l : List (A × β)} {fuel : Nat}
    (hc : Chain h a l) (hf : l.length ≤ fuel) : h.toList fuel a = l :=
  hc.seg.elim fun _ hs => hs.toList hf

omit [DecidableEq A] in
theorem Chain.tail {h : Heap A β} {a : Option A} {i : A} {v : β} {l : List (A × β)} {fuel : Nat}
    (hc : Chain h a ((i, v) :: l)) (hf : l.length ≤ fuel) :
    ∃ c, h i = some c ∧ c.val = v ∧ h.toList fuel c.next = l := by
  obtain ⟨⟨q, rfl, n, hi, hs⟩, -⟩ := hc
  exact ⟨_, hi, rfl, hs.toList hf⟩

omit [DecidableEq A] in
theorem Chain.cell {h : Heap A β} {a : Option A} {l : List (A × β)} {i : A} {v : β}
    (hc : Chain h a l) (hi : (i, v) ∈ l) : ∃ c, h i = some c ∧ c.val = v := by
  obtain ⟨l₁, l₂, rfl⟩ := List.append_of_mem hi
  obtain ⟨⟨q, hs⟩, -⟩ := hc
  obtain ⟨q', b', -, -, n, hn, -⟩ := seg_append.mp hs
  exact ⟨_, hn, rfl⟩

omit [DecidableEq A] in
theorem Chain.prev_ne_none {h : Heap A β} {a : Option A} {x : A × β} {l : List (A × β)} {i : A}
    (hc : Chain h a (x :: l)) (hi : i ∈ l.map Prod.fst) : (h i).bind Cell.prev ≠ none := by
  obtain ⟨⟨j, v⟩, hv, rfl⟩ := List.mem_map.mp hi
  obtain ⟨l₁, l₂, rfl⟩ := List.append_of_mem hv
  obtain ⟨⟨q, hs⟩, -⟩ := hc
  rw [← List.cons_append] at hs
  obtain ⟨q', b', h1, -, n, hn, -⟩ := seg_append.mp hs
  rcases List.eq_nil_or_concat (x :: l₁) with hnil | ⟨l, y, hl⟩
  · simp at hnil
  · rw [hl, List.concat_eq_append] at h1
    obtain ⟨q₀, b₀, -, -, m, -, h3⟩ := seg_append.mp h1
    simp [hn, ← h3.1]

/-- The list after a change of the value at one address. -/
def modifyAt (i : A) (f : β → β) (l : List (A × β)) : List (A × β) :=
  l.map fun x => if x.1 = i then (x.1, f x.2) else x

def removeAt (i : A) (l : List (A × β)) : List (A × β) := l.filter fun x => decide (x.1 ≠ i)

@[simp] theorem modifyAt_fst (i : A) (f : β → β) (l : List (A × β)) :
    (modifyAt i f l).map Prod.fst = l.map Prod.fst := by
  rw [modifyAt, List.map_map]
  refine List.map_congr_left fun x _ => ?_
  by_cases hx : x.1 = i <;> simp [hx]

theorem Seg.modifyVal {q b : Option A} (i : A) (f : β → β) :
    {l : List (A × β)} → {p a : Option A} → Seg h p a l q b →
    Seg (h.modifyVal i f) p a (modifyAt i f l) q b
  | [], _, _, hs => hs
  | (j, v) :: l, p, a, hs => by
      obtain ⟨rfl, n, hj, hs⟩ := hs
      have ih := hs.modifyVal i f
      by_cases hji : j = i
      · subst hji
        rw [modifyAt, List.map_cons, if_pos rfl]
        exact ⟨rfl, n, modify_self hj, ih⟩
      · rw [modifyAt, List.map_cons, if_neg hji]
        refine ⟨rfl, n, ?_, ih⟩
        rw [Heap.modifyVal, modify_of_ne (by simpa using Ne.symm hji), hj]

theorem Chain.modifyVal (i : A) (f : β → β) (hc : Chain h a l) :
    Chain (h.modifyVal i f) a (modifyAt i f l) := by
  obtain ⟨⟨q, hs⟩, hnd⟩ := hc
  exact ⟨⟨q, hs.modifyVal i f⟩, by rwa [modifyAt_fst]⟩

theorem modifyAt_of_not_mem {i : A} (hi : i ∉ l.map Prod.fst) : modifyAt i f l = l := by
  rw [modifyAt]
  refine (List.map_congr_left fun x hx => ?_).trans (List.map_id l)
  have hne : x.1 ≠ i := fun h => hi (h ▸ List.mem_map_of_mem hx)
  rw [if_neg hne, id]

theorem modifyAt_cons_self {i : A} {v : β} (hi : i ∉ l.map Prod.fst) :
    modifyAt i f ((i, v) :: l) = (i, f v) :: l := by
  have ht := modifyAt_of_not_mem (f := f) hi
  rw [modifyAt] at ht
  rw [modifyAt, List.map_cons, if_pos rfl, ht]

theorem modifyAt_cons_of_ne {i j : A} {v : β} (hne : j ≠ i) :
    modifyAt i f ((j, v) :: l) = (j, v) :: modifyAt i f l := by
  rw [modifyAt, List.map_cons, if_neg hne, modifyAt]

/-- Unlinking a cell that is not the head takes it out of the list. -/
theorem Chain.unlink {l₁ l₂ : List (A × β)} {i : A} {v : β} (hc : Chain h a (l₁ ++ (i, v) :: l₂))
    (hne : l₁ ≠ []) : Chain (h.unlink i) a (l₁ ++ l₂) := by
  obtain ⟨l, ⟨k, w⟩, rfl⟩ := (List.eq_nil_or_concat l₁).resolve_left hne
  rw [List.concat_eq_append] at hc ⊢
  obtain ⟨⟨q, hs⟩, hnd⟩ := hc
  simp only [List.append_assoc, List.cons_append, List.nil_append] at hs hnd ⊢
  obtain ⟨q₀, b₀, h0, rfl, m, hk, rfl, n, hi, h2⟩ := seg_append.mp hs
  simp only [List.map_append, List.map_cons] at hnd
  obtain ⟨-, hndk, hdis⟩ := List.nodup_append.mp hnd
  obtain ⟨hki, hndi⟩ := List.nodup_cons.mp hndk
  obtain ⟨hi₂, hnd₂⟩ := List.nodup_cons.mp hndi
  have hun : h.unlink i = (h.setNext (some k) n).setPrev n (some k) := by
    simp only [Heap.unlink, hi]
  -- neither the cells before `k` nor `k` itself can be the successor of `i`
  have hn : ∀ j, n = some j → j ∈ l₂.map Prod.fst := by
    rintro j rfl
    exact h2.head_mem (by simp)
  have h2k : Seg (h.setNext (some k) n) (some i) n l₂ q none := by
    refine h2.congr fun j hj => modify_of_ne ?_
    rintro ⟨⟩
    exact hki (List.mem_cons_of_mem _ hj)
  obtain ⟨q', h2'⟩ := Seg.setPrev (some k) hnd₂ h2k rfl
  refine ⟨⟨q', ?_⟩, hnd.sublist (by simp)⟩
  rw [hun]
  refine seg_append.mpr ⟨q₀, some k, h0.congr fun j hj => ?_, rfl, n, ?_, h2'⟩
  · rw [Heap.setPrev, modify_of_ne, Heap.setNext, modify_of_ne]
    · rintro ⟨⟩
      exact hdis k hj k (by simp) rfl
    · intro hj'
      exact hdis j hj j (by simp [hn j hj']) rfl
  · rw [Heap.setPrev, modify_of_ne]
    · exact modify_self hk
    · intro hk'
      exact hki (List.mem_cons_of_mem _ (hn k hk'))

theorem Chain.removeAt {x : A × β} {i : A} (hc : Chain h a (x :: l)) (hi : i ∈ l.map Prod.fst) :
    Chain (h.unlink i) a (x :: Heap.removeAt i l) := by
  obtain ⟨⟨j, v⟩, hv, rfl⟩ := List.mem_map.mp hi
  obtain ⟨l₁, l₂, rfl⟩ := List.append_of_mem hv
  have hnd := hc.nodup
  simp only [List.map_cons, List.map_append, List.nodup_cons] at hnd
  obtain ⟨-, hnd₂, hdis⟩ := List.nodup_append.mp hnd.2
  have hj₂ := (List.nodup_cons.mp hnd₂).1
  have hrem : Heap.removeAt j (l₁ ++ (j, v) :: l₂) = l₁ ++ l₂ := by
    have h1 : ∀ y ∈ l₁, y.1 ≠ j := fun y hy =>
      hdis y.1 (List.mem_map_of_mem hy) j (by simp)
    have h2 : ∀ y ∈ l₂, y.1 ≠ j := fun y hy hyj => hj₂ (hyj ▸ List.mem_map_of_mem hy)
    rw [Heap.removeAt, List.filter_append, List.filter_cons_of_neg (by simp),
      List.filter_eq_self.mpr fun y hy => by simpa using h1 y hy,
      List.filter_eq_self.mpr fun y hy => by simpa using h2 y hy]
  have hc' : Chain h a ((x :: l₁) ++ (j, v) :: l₂) := hc
  show Chain (h.unlink j) a (x :: Heap.removeAt j (l₁ ++ (j, v) :: l₂))
  rw [hrem]
  exact hc'.unlink (by simp)

theorem Chain.insertAfter {r x : A} {v w : β} (hc : Chain h (some r) ((r, v) :: l))
    (hx : x ∉ ((r, v) :: l).map Prod.fst) :
    Chain (h.insertAfter r x w) (some r) ((r, v) :: (x, w) :: l) := by
  obtain ⟨⟨q, -, n, hr, hs⟩, hnd⟩ := hc
  simp only [List.map_cons, List.mem_cons, not_or] at hx hnd
  obtain ⟨hrl, hndl⟩ := List.nodup_cons.mp hnd
  have hn : ∀ j, n = some j → j ∈ l.map Prod.fst := by
    rintro j rfl
    exact hs.head_mem (by simp)
  have hins : h.insertAfter r x w =
      ((h.alloc x ⟨some r, n, w⟩).setPrev n (some x)).setNext (some r) (some x) := by
    simp only [Heap.insertAfter, hr]
  have hsx : Seg (h.alloc x ⟨some r, n, w⟩) (some r) n l q none := by
    refine hs.congr fun j hj => alloc_of_ne ?_
    rintro rfl
    exact hx.2 hj
  obtain ⟨q', hs'⟩ := Seg.setPrev (some x) hndl hsx rfl
  refine ⟨⟨q', rfl, some x, ?_, rfl, n, ?_, ?_⟩, ?_⟩
  · rw [hins]
    refine modify_self (c := ⟨none, n, v⟩) ?_
    rw [Heap.setPrev, modify_of_ne, alloc_of_ne (Ne.symm hx.1), hr]
    intro hj
    exact hrl (hn r hj)
  · rw [hins, Heap.setNext, modify_of_ne, Heap.setPrev, modify_of_ne, alloc_self]
    · intro hj
      exact hx.2 (hn x hj)
    · rintro ⟨⟩
      exact hx.1 rfl
  · rw [hins]
    refine hs'.congr fun j hj => modify_of_ne ?_
    rintro ⟨⟩
    exact hrl hj
  · simp only [List.map_cons, List.nodup_cons, List.mem_cons, not_or]
    exact ⟨⟨Ne.symm hx.1, hrl⟩, hx.2, hndl⟩

theorem Chain.relocateHead {r x : A} {v : β} (f : β → β) (hc : Chain h (some r) ((r, v) :: l))
    (hx : x ∉ ((r, v) :: l).map Prod.fst) :
    Chain (h.relocateHead r x f) (some x) ((x, f v) :: l) := by
  obtain ⟨⟨q, -, n, hr, hs⟩, hnd⟩ := hc
  simp only [List.map_cons, List.mem_cons, not_or] at hx hnd
  obtain ⟨hrl, hndl⟩ := List.nodup_cons.mp hnd
  have hrel : h.relocateHead r x f = (h.alloc x ⟨none, n, f v⟩).setPrev n (some x) := by
    simp only [Heap.relocateHead, hr]
  have hsx : Seg (h.alloc x ⟨none, n, f v⟩) (some r) n l q none := by
    refine hs.congr fun j hj => alloc_of_ne ?_
    rintro rfl
    exact hx.2 hj
  obtain ⟨q', hs'⟩ := Seg.setPrev (some x) hndl hsx rfl
  refine ⟨⟨q', rfl, n, ?_, ?_⟩, ?_⟩
  · rw [hrel, Heap.setPrev, modify_of_ne, alloc_self]
    rintro rfl
    exact hx.2 (hs.head_mem (by simp))
  · rw [hrel]
    exact hs'
  · simpa using ⟨by simpa using hx.2, by simpa using hndl⟩

theorem Chain.pushFront {x : A} {w : β} (hc : Chain h a l) (hx : x ∉ l.map Prod.fst) :
    Chain (h.pushFront a x w) (some x) ((x, w) :: l) := by
  obtain ⟨⟨q, hs⟩, hnd⟩ := hc
  have hsx : Seg (h.alloc x ⟨none, a, w⟩) none a l q none := by
    refine hs.congr fun j hj => alloc_of_ne ?_
    rintro rfl
    exact hx hj
  obtain ⟨q', hs'⟩ := Seg.setPrev (some x) hnd hsx rfl
  refine ⟨⟨q', rfl, a, ?_, hs'⟩, ?_⟩
  · rw [Heap.pushFront, Heap.setPrev, modify_of_ne, alloc_self]
    rintro rfl
    exact hx (hs.head_mem (by simp))
  · simpa using ⟨by simpa using hx, hnd⟩

omit [DecidableEq A] in
theorem Seg.exit_eq {h : Heap A β} {q b : Option A} :
    {l : List (A × β)} → {p a : Option A} → Seg h p a l q b →
    q = (l.getLast?.map Prod.fst).or p
  | [], _, _, hs => hs.1.symm
  | (i, v) :: l, p, a, hs => by
      obtain ⟨rfl, n, -, hs⟩ := hs
      rw [hs.exit_eq, List.getLast?_cons]
      cases l.getLast? <;> rfl

omit [DecidableEq A] in
theorem Chain.cell_eq {h : Heap A β} {a : Option A} {l₁ l₂ : List (A × β)} {i : A} {v : β}
    (hc : Chain h a (l₁ ++ (i, v) :: l₂)) :
    h i = some ⟨l₁.getLast?.map Prod.fst, l₂.head?.map Prod.fst, v⟩ := by
  obtain ⟨⟨q, hs⟩, -⟩ := hc
  obtain ⟨q', b', h1, rfl, n, hi, h2⟩ := seg_append.mp hs
  have hn : n = l₂.head?.map Prod.fst := by
    cases l₂ with
    | nil => exact h2.2
    | cons x l₂ => exact h2.1
  rw [hi, h1.exit_eq, hn, Option.or_none]

omit [DecidableEq A] in
theorem Chain.head_eq {h : Heap A β} {a : Option A} {l : List (A × β)} (hc : Chain h a l) :
    a = l.head?.map Prod.fst := by
  obtain ⟨⟨q, hs⟩, -⟩ := hc
  cases l with
  | nil => exact hs.2
  | cons x l => exact hs.1

omit [DecidableEq A] in
theorem chain_pair {h : Heap A β} {r x : A} {v w : β} (hne : r ≠ x)
    (hr : h r = some ⟨none, some x, v⟩) (hx : h x = some ⟨some r, none, w⟩) :
    Chain h (some r) [(r, v), (x, w)] :=
  ⟨⟨some x, rfl, some x, hr, rfl, none, hx, rfl, rfl⟩, by simpa using hne⟩

end Heap

end MiniDuck
