import Mathlib

/-!
# Searching with restarts

A search for a pattern in one pass over a text that counts the elements
matched so far and, at a mismatch, starts over behind the element that
failed. It compares the pattern at some positions only, its `start`s, and
finds the first occurrence among those (`scan_spec`). So it misses the
leftmost occurrence if a comparison runs into it, which for each pattern
happens in some text, unless the elements of the pattern are all equal
(`reached_all_iff`).
-/

namespace MiniDuck.RestartSearch

variable {α : Type*}

/-! ## Occurrences -/

def Occurs (pattern text : List α) (p : Nat) : Prop := pattern <+: text.drop p

structure Leftmost (pattern text : List α) (p : Nat) : Prop where
  occurs : Occurs pattern text p
  least : ∀ q, Occurs pattern text q → p ≤ q

/-- The 1-based position of the leftmost occurrence, or 0 if there is none. -/
def IsPosition (pattern text : List α) (position : Nat) : Prop :=
  (∃ p, Leftmost pattern text p ∧ position = p + 1) ∨
    (position = 0 ∧ ∀ p, ¬ Occurs pattern text p)

variable {pattern text : List α}

theorem Occurs.add_length_le {p : Nat} (hne : pattern ≠ []) (h : Occurs pattern text p) :
    p + pattern.length ≤ text.length := by
  have hpos := List.length_pos_of_ne_nil hne
  have hle := List.IsPrefix.length_le h
  rw [List.length_drop] at hle
  omega

theorem exists_leftmost {p : Nat} (h : Occurs pattern text p) : ∃ q, Leftmost pattern text q := by
  classical
  have hex : ∃ q, Occurs pattern text q := ⟨p, h⟩
  exact ⟨Nat.find hex, Nat.find_spec hex, fun q hq => Nat.find_min' hex hq⟩

/-! ## Starts -/

variable [DecidableEq α]

def matched : List α → List α → Nat
  | a :: pattern, b :: text => if a = b then matched pattern text + 1 else 0
  | _, _ => 0

def start (pattern text : List α) : Nat → Nat
  | 0 => 0
  | n + 1 => start pattern text n + matched pattern (text.drop (start pattern text n)) + 1

theorem matched_le : ∀ pattern text : List α, matched pattern text ≤ pattern.length
  | [], _ => Nat.le_refl 0
  | _ :: _, [] => Nat.zero_le _
  | a :: pattern, b :: text => by
      have hle := matched_le pattern text
      rw [matched, List.length_cons]
      split_ifs <;> omega

theorem take_matched : ∀ pattern text : List α,
    pattern.take (matched pattern text) = text.take (matched pattern text)
  | [], _ => by simp [matched]
  | _ :: _, [] => by simp [matched]
  | a :: pattern, b :: text => by
      rw [matched]
      split_ifs with h
      · rw [List.take_succ_cons, List.take_succ_cons, take_matched pattern text, h]
      · rfl

/-- Elements that agree up to one that does not, or to the end of the text. -/
theorem matched_eq : ∀ {k : Nat} {pattern text : List α}, k < pattern.length → k ≤ text.length →
    pattern.take k = text.take k → pattern[k]? ≠ text[k]? → matched pattern text = k
  | 0, a :: pattern, [], _, _, _, _ => rfl
  | 0, a :: pattern, b :: text, _, _, _, h => by
      rw [matched, if_neg fun hab => h (by simp [hab])]
  | k + 1, a :: pattern, b :: text, hk, hle, htake, h => by
      rw [List.take_succ_cons, List.take_succ_cons] at htake
      obtain ⟨hab, htake'⟩ := List.cons.inj htake
      have hmatched := matched_eq (Nat.lt_of_succ_lt_succ hk) (Nat.le_of_succ_le_succ hle) htake'
        (by simpa using h)
      rw [matched, if_pos hab, hmatched]

theorem strictMono_start (pattern text : List α) : StrictMono (start pattern text) := by
  refine strictMono_nat_of_lt_succ fun n => ?_
  rw [start]
  omega

/-! ## The scan -/

/-- One element of the text at position `i`, with `k` elements of the pattern matched before it;
`error` returns from the scan. -/
def step (pattern : List α) (b : α) (i k : Nat) : Except Nat Nat :=
  if pattern[k]? = some b then
    if k + 1 = pattern.length then .error (i + 2 - pattern.length) else .ok (k + 1)
  else .ok 0

/-- The comparison that is under way, and that all before it have failed. -/
structure Underway (pattern text : List α) (i k n : Nat) : Prop where
  lt : k < pattern.length
  start_add : start pattern text n + k = i
  take_eq : pattern.take k = (text.drop (start pattern text n)).take k
  failed : ∀ m < n, ¬ Occurs pattern text (start pattern text m)

def Finds (pattern text : List α) (position : Nat) : Prop :=
  ∃ n, Occurs pattern text (start pattern text n) ∧
    (∀ m < n, ¬ Occurs pattern text (start pattern text m)) ∧ position = start pattern text n + 1

theorem step_spec {b : α} {i k n : Nat} (h : Underway pattern text i k n)
    (hb : text[i]? = some b) :
    match step pattern b i k with
    | .error position => Finds pattern text position
    | .ok k' => ∃ n', Underway pattern text (i + 1) k' n' := by
  obtain ⟨hlt, hstart, htake, hfailed⟩ := h
  have hb' : (text.drop (start pattern text n))[k]? = some b := by
    rw [List.getElem?_drop, hstart, hb]
  by_cases hk : pattern[k]? = some b
  · have hsucc : pattern.take (k + 1) = (text.drop (start pattern text n)).take (k + 1) := by
      rw [List.take_add_one, List.take_add_one, htake, hk, hb']
    rw [step, if_pos hk]
    by_cases hfull : k + 1 = pattern.length
    · rw [if_pos hfull]
      refine ⟨n, ?_, hfailed, by omega⟩
      rw [hfull, List.take_length] at hsucc
      have hprefix := List.take_prefix pattern.length (text.drop (start pattern text n))
      rwa [← hsucc] at hprefix
    · rw [if_neg hfull]
      exact ⟨n, by omega, by omega, hsucc, hfailed⟩
  · -- the element that fails is not compared again
    have hlength : k ≤ (text.drop (start pattern text n)).length := by
      by_contra hgt
      rw [List.getElem?_eq_none (by omega)] at hb'
      exact absurd hb' (by simp)
    have hmatched := matched_eq hlt hlength htake (by rwa [hb'])
    rw [step, if_neg hk]
    refine ⟨n + 1, by omega, by rw [start, hmatched]; omega, by simp, fun m hm => ?_⟩
    obtain hm | rfl := Nat.lt_succ_iff_lt_or_eq.mp hm
    · exact hfailed m hm
    · intro hoccurs
      obtain ⟨rest, hrest⟩ := hoccurs
      rw [← hrest, List.getElem?_append_left hlt] at hb'
      exact hk hb'

/-- The scan of a text from position `i` on. -/
def scan (pattern : List α) (elements : List (α × Nat)) (k : Nat) : Except Nat Nat :=
  elements.foldlM (fun k element => step pattern element.1 element.2 k) k

theorem scan_from {i k n : Nat} (h : Underway pattern text i k n) (hi : i ≤ text.length) :
    match scan pattern ((text.drop i).zipIdx i) k with
    | .error position => Finds pattern text position
    | .ok k' => ∃ n', Underway pattern text text.length k' n' := by
  obtain ⟨m, hm⟩ : ∃ m, text.length - i = m := ⟨_, rfl⟩
  induction m generalizing i k n with
  | zero =>
      have hend : i = text.length := by omega
      subst hend
      rw [List.drop_length]
      exact ⟨n, h⟩
  | succ m ih =>
      have hlt : i < text.length := by omega
      have hstep := step_spec h (List.getElem?_eq_getElem hlt)
      rw [List.drop_eq_getElem_cons hlt, List.zipIdx_cons, scan, List.foldlM_cons]
      cases hresult : step pattern text[i] i k with
      | error position =>
          rw [hresult] at hstep
          exact hstep
      | ok k' =>
          rw [hresult] at hstep
          obtain ⟨n', hn'⟩ := hstep
          exact ih hn' hlt (by omega)

/-- The scan returns the first start with an occurrence, or comes to the end without one. -/
theorem scan_spec (text : List α) (hne : pattern ≠ []) :
    match scan pattern text.zipIdx 0 with
    | .error position => Finds pattern text position
    | .ok _ => ∀ n, ¬ Occurs pattern text (start pattern text n) := by
  have hpos := List.length_pos_of_ne_nil hne
  have hbegin : Underway pattern text 0 0 0 :=
    ⟨hpos, rfl, rfl, fun m hm => absurd hm (Nat.not_lt_zero m)⟩
  have hscan := scan_from hbegin (Nat.zero_le _)
  rw [List.drop_zero] at hscan
  cases hresult : scan pattern text.zipIdx 0 with
  | error position => rwa [hresult] at hscan
  | ok k =>
      rw [hresult] at hscan
      obtain ⟨n, hlt, hstart, -, hfailed⟩ := hscan
      intro m hoccurs
      obtain hm | hm := Nat.lt_or_ge m n
      · exact hfailed m hm hoccurs
      · have hle := (strictMono_start pattern text).monotone hm
        have hend := hoccurs.add_length_le hne
        omega

/-! ## When the leftmost occurrence is found -/

def Reached (pattern text : List α) : Prop :=
  ∀ p, Leftmost pattern text p → ∃ n, start pattern text n = p

theorem isPosition_of_finds {position : Nat} (h : Finds pattern text position) :
    IsPosition pattern text position ↔ Reached pattern text := by
  obtain ⟨n, hoccurs, hfirst, rfl⟩ := h
  constructor
  · intro hposition p hp
    obtain ⟨q, hq, heq⟩ | ⟨heq, -⟩ := hposition
    · have hpq : p = q := Nat.le_antisymm (hp.least q hq.occurs) (hq.least p hp.occurs)
      exact ⟨n, by omega⟩
    · omega
  · intro hreached
    obtain ⟨p, hp⟩ := exists_leftmost hoccurs
    obtain ⟨m, hm⟩ := hreached p hp
    have hnm : n ≤ m := by
      by_contra hlt
      refine hfirst m (by omega) ?_
      rw [hm]
      exact hp.occurs
    have hle := (strictMono_start pattern text).monotone hnm
    have hge := hp.least _ hoccurs
    exact Or.inl ⟨p, hp, by omega⟩

theorem isPosition_zero (h : ∀ n, ¬ Occurs pattern text (start pattern text n)) :
    IsPosition pattern text 0 ↔ Reached pattern text := by
  constructor
  · intro hposition p hp
    obtain ⟨q, -, hq⟩ | ⟨-, hnone⟩ := hposition
    · omega
    · exact absurd hp.occurs (hnone p)
  · intro hreached
    refine Or.inr ⟨rfl, fun p hp => ?_⟩
    obtain ⟨q, hq⟩ := exists_leftmost hp
    obtain ⟨n, hn⟩ := hreached q hq
    refine h n ?_
    rw [hn]
    exact hq.occurs

/-! ## Patterns -/

omit [DecidableEq α] in
theorem occurs_replicate {b : α} {m p : Nat} : Occurs (List.replicate m b) text p ↔
    ∀ j < m, text[p + j]? = some b := by
  constructor
  · rintro ⟨rest, hrest⟩ j hj
    rw [← List.getElem?_drop, ← hrest, List.getElem?_append_left (by simpa using hj),
      List.getElem?_replicate_of_lt hj]
  · intro h
    refine List.prefix_iff_getElem?.mpr fun j hj => ?_
    rw [List.length_replicate] at hj
    rw [List.getElem?_drop, h j hj, List.getElem_replicate]

/-- A comparison of equal elements that runs into an occurrence is one itself. -/
theorem reached_replicate {b : α} {m : Nat} : Reached (List.replicate m b) text := by
  intro p hp
  by_contra hnone
  have hmono := strictMono_start (List.replicate m b) text
  have hbefore : ∀ n, start (List.replicate m b) text n < p := by
    intro n
    induction n with
    | zero => exact Nat.pos_of_ne_zero fun h => hnone ⟨0, h.symm⟩
    | succ n ih =>
        refine lt_of_le_of_ne ?_ fun h => hnone ⟨n + 1, h⟩
        by_contra hgt
        have hk := take_matched (List.replicate m b) (text.drop (start (List.replicate m b) text n))
        have hkm := matched_le (List.replicate m b)
          (text.drop (start (List.replicate m b) text n))
        rw [start] at hgt
        generalize start (List.replicate m b) text n = q at *
        generalize matched (List.replicate m b) (text.drop q) = k at *
        rw [List.length_replicate] at hkm
        have hearlier : Occurs (List.replicate m b) text q := by
          refine occurs_replicate.mpr fun j hj => ?_
          obtain hjk | hjk := Nat.lt_or_ge j k
          · have hat := congrArg (·[j]?) hk
            simp only [List.getElem?_take_of_lt hjk, List.getElem?_drop,
              List.getElem?_replicate_of_lt hj] at hat
            exact hat.symm
          · have hat := occurs_replicate.mp hp.occurs (q + j - p) (by omega)
            rwa [show p + (q + j - p) = q + j by omega] at hat
        have hle := hp.least q hearlier
        omega
  have hid := hmono.id_le p
  have hlt := hbefore p
  simp only [id_eq] at hid
  omega

/-- The comparison at the front passes over the occurrence behind it. -/
theorem not_reached_cons {a b : α} {j : Nat} {rest : List α} (hab : a ≠ b) :
    ¬ Reached (List.replicate (j + 1) a ++ b :: rest)
      (a :: (List.replicate (j + 1) a ++ b :: rest)) := by
  obtain ⟨pattern, hpattern⟩ : ∃ pattern, pattern = List.replicate (j + 1) a ++ b :: rest :=
    ⟨_, rfl⟩
  rw [← hpattern]
  intro hreached
  have hlast : pattern[j]? = some a := by
    rw [hpattern, List.getElem?_append_left (by simp), List.getElem?_replicate_of_lt (by omega)]
  have hnext : pattern[j + 1]? = some b := by
    rw [hpattern, List.getElem?_append_right (by simp)]
    simp
  have hfront : ¬ Occurs pattern (a :: pattern) 0 := by
    rintro ⟨suffix, hsuffix⟩
    have hlt : j + 1 < pattern.length := (List.getElem?_eq_some_iff.mp hnext).1
    have hat := congrArg (·[j + 1]?) hsuffix
    simp only [List.getElem?_append_left hlt, hnext, List.drop_zero,
      List.getElem?_cons_succ, hlast] at hat
    exact hab (Option.some.inj hat).symm
  have hleftmost : Leftmost pattern (a :: pattern) 1 := by
    refine ⟨List.prefix_refl pattern, fun q hq => ?_⟩
    exact Nat.one_le_iff_ne_zero.mpr fun hzero => hfront (hzero ▸ hq)
  obtain ⟨n, hn⟩ := hreached 1 hleftmost
  have htwo : 2 ≤ start pattern (a :: pattern) 1 := by
    rw [start, start, List.drop_zero]
    nth_rewrite 1 [hpattern]
    rw [List.replicate_succ, List.cons_append, matched, if_pos rfl]
    omega
  cases n with
  | zero => exact absurd hn (show ¬ 0 = 1 by decide)
  | succ n =>
      have hmono := (strictMono_start pattern (a :: pattern)).monotone (Nat.le_add_left 1 n)
      omega

omit [DecidableEq α] in
theorem replicate_or_run (a : α) : ∀ rest : List α,
    (∃ m, a :: rest = List.replicate m a) ∨
      ∃ j b tail, a ≠ b ∧ a :: rest = List.replicate (j + 1) a ++ b :: tail
  | [] => Or.inl ⟨1, rfl⟩
  | c :: rest => by
      by_cases hc : a = c
      · subst hc
        obtain ⟨m, hm⟩ | ⟨j, b, tail, hab, hrun⟩ := replicate_or_run a rest
        · exact Or.inl ⟨m + 1, by rw [hm, List.replicate_succ]⟩
        · refine Or.inr ⟨j + 1, b, tail, hab, ?_⟩
          rw [hrun]
          rfl
      · exact Or.inr ⟨0, c, rest, hc, rfl⟩

/-- Unless its elements are all equal, there is a text that the search fails on. -/
theorem reached_all_iff (hne : pattern ≠ []) :
    (∀ text, text ≠ [] → Reached pattern text) ↔ ∃ m b, pattern = List.replicate m b := by
  constructor
  · intro hreached
    cases pattern with
    | nil => exact absurd rfl hne
    | cons a rest =>
        obtain ⟨m, hm⟩ | ⟨j, b, tail, hab, hrun⟩ := replicate_or_run a rest
        · exact ⟨m, a, hm⟩
        · have hcons := hreached (a :: a :: rest) (by simp)
          rw [hrun] at hcons
          exact absurd hcons (not_reached_cons hab)
  · rintro ⟨m, b, rfl⟩ text _
    exact reached_replicate

end MiniDuck.RestartSearch
