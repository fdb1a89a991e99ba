import MiniDuck.CsvStateMachine
import MiniDuck.PatternScan

/-!
# Delimiters of several bytes

Between two special bytes the state machine scans for the delimiter. Each
of its states stands for the number of delimiter bytes that were just read
(`Stands`), and the transitions keep the overlap with the delimiter. They
do so for every delimiter of two or three bytes (`tracks_two`,
`tracks_three`) and for most of four (`tracks_four`).

A delimiter `aabc` is the exception: after `aa` another `a` leads back to
one byte instead of two. What the state machine remembers is then only
whether the number of `a` is odd (`lostOverlap`), and a delimiter is missed
exactly if the value before it ends in an odd number of them.
-/

namespace MiniDuck
namespace Csv

open PatternScan

namespace CSVStateMachineOptions

variable (o : CSVStateMachineOptions)

/-- The bytes that a delimiter and an unquoted run do not contain. -/
def isSpecial (b : UInt8) : Bool :=
  b = lineFeed || b = Csv.carriageReturn || b = space || o.isQuote b || o.isComment b ||
    (o.escape ≠ 0 && b = o.escape)

/-- The states that have read `k` bytes of the delimiter. -/
def Stands (k : Nat) (state : CSVState) : Prop :=
  match k with
  | 0 => FieldStart state ∨ state = .standard
  | 1 => state = .delimiterFirstByte
  | 2 => state = .delimiterSecondByte
  | 3 => state = .delimiterThirdByte
  | _ => False

/-- `multi_byte_delimiter`, of bytes that are not special. -/
structure MultiByteDelimiter : Prop where
  length : 2 ≤ o.delimiter.length ∧ o.delimiter.length ≤ 4
  plain : ∀ b ∈ o.delimiter, o.isSpecial b = false

variable {o}

theorem isSpecial_eq_false {b : UInt8} (h : o.isSpecial b = false) :
    b ≠ lineFeed ∧ b ≠ Csv.carriageReturn ∧ o.isSpace b = false ∧ o.isQuote b = false ∧
      o.isComment b = false ∧ o.isUnquotedEscape b = false := by
  simp only [isSpecial, Bool.or_eq_false_iff, decide_eq_false_iff_not, Bool.and_eq_false_iff] at h
  obtain ⟨⟨⟨⟨⟨hline, hreturn⟩, hspace⟩, hquote⟩, hcomment⟩, hescape⟩ := h
  refine ⟨hline, hreturn, by simp [isSpace, hspace], hquote, hcomment, ?_⟩
  rcases hescape with hescape | hescape
  · simp_all [isUnquotedEscape, enableUnquotedEscape]
  · simp [isUnquotedEscape, hescape]

theorem MultiByteDelimiter.delimiterState_eq (hd : o.MultiByteDelimiter) :
    o.delimiterState = .delimiterFirstByte :=
  if_pos (decide_eq_true (show 1 < o.delimiter.length from hd.length.1))

/-- At the start of a value and inside it only the first byte of the delimiter counts. -/
theorem transition_stands_zero (hd : o.MultiByteDelimiter) {state : CSVState}
    (hs : Stands 0 state) {b : UInt8} (hb : o.isSpecial b = false) :
    o.transition state b =
      if o.delimiterFirstByte = b then .delimiterFirstByte else .standard := by
  obtain ⟨hline, hreturn, hspace, hquote, hcomment, hescape⟩ := isSpecial_eq_false hb
  have hmulti := hd.delimiterState_eq
  rcases hs with (rfl | rfl | rfl) | rfl
  · simp [transition, notSetTransition, hline, hreturn, hspace, hquote, hcomment, hescape, hmulti,
      eq_comm (a := b)]
  · simp [transition, recordSeparatorTransition, hline, hreturn, hspace, hquote, hcomment, hescape,
      hmulti, eq_comm (a := b)]
  · simp [transition, delimiterTransition, hline, hreturn, hspace, hquote, hcomment, hescape,
      hmulti, eq_comm (a := b)]
  · simp [transition, standardTransition, hline, hreturn, hcomment, hescape, hmulti,
      eq_comm (a := b)]

theorem delimiterBytesTransition_eq (hd : o.MultiByteDelimiter) {b : UInt8}
    (hb : o.isSpecial b = false) :
    o.delimiterBytesTransition b =
      if o.delimiterFirstByte = b then .delimiterFirstByte else .standard := by
  obtain ⟨hline, hreturn, -⟩ := isSpecial_eq_false hb
  have hmulti := hd.delimiterState_eq
  simp [delimiterBytesTransition, hline, hreturn, hmulti, eq_comm (a := b)]

/-- The state after a byte that leads to an overlap of `k`, of all `n` bytes or of fewer. -/
def Lands (n k : Nat) (state : CSVState) : Prop :=
  if k = n then state = .delimiter else state ≠ .delimiter ∧ Stands k state

theorem tracks_of_lands (hd : o.MultiByteDelimiter)
    (h : ∀ k state b, k < o.delimiter.length → Stands k state → o.isSpecial b = false →
      Lands o.delimiter.length (overlap o.delimiter (o.delimiter.take k ++ [b]))
        (o.transition state b)) :
    Tracks o.delimiter o.transition (fun b => o.isSpecial b = false) (fun s => s = .delimiter)
      Stands := by
  refine ⟨?_, fun k s b hk hs hb hlt => ?_, fun k s b hk hs hb heq => ?_⟩
  · intro hnil
    have := hd.length.1
    rw [hnil] at this
    cases this
  · have hland := h k s b hk hs hb
    rw [Lands, if_neg hlt.ne] at hland
    exact ⟨decide_eq_false hland.1, hland.2⟩
  · have hland := h k s b hk hs hb
    rw [Lands, if_pos heq] at hland
    exact ⟨decide_eq_true hland, .inl (.inr (.inr hland))⟩

theorem delimiterFirstByte_eq {x : UInt8} {rest : Bytes} (h : o.delimiter = x :: rest) :
    o.delimiterFirstByte = x := by
  rw [delimiterFirstByte, h]
  rfl

/-- A delimiter byte is compared before the restart of the delimiter. -/
theorem transition_first (hd : o.MultiByteDelimiter) {x y : UInt8} {rest : Bytes}
    (h : o.delimiter = x :: y :: rest) {b : UInt8} (hb : o.isSpecial b = false) :
    o.transition .delimiterFirstByte b =
      if y = b then if rest = [] then .delimiter else .delimiterSecondByte
      else if x = b then .delimiterFirstByte else .standard := by
  have hlength := hd.length.2
  rw [h, List.length_cons, List.length_cons] at hlength
  simp only [transition, delimiterFirstByteTransition, delimiterBytesTransition_eq hd hb,
    delimiterFirstByte_eq h, delimiterByte, h, List.length_cons, List.getD_cons_succ,
    List.getD_cons_zero, eq_comm (a := b)]
  cases rest with
  | nil => simp
  | cons z rest =>
      have hmore : rest = [] ∨ rest.length = 1 := by
        rw [List.length_cons] at hlength
        rw [← List.length_eq_zero_iff]
        omega
      simp [hmore]

theorem tracks_two (hd : o.MultiByteDelimiter) {x y : UInt8} (h : o.delimiter = [x, y]) :
    Tracks o.delimiter o.transition (fun b => o.isSpecial b = false) (fun s => s = .delimiter)
      Stands := by
  refine tracks_of_lands hd fun k state b hk hs hb => ?_
  rw [h] at hk ⊢
  match k, hk with
  | 0, _ =>
      have hoverlap : overlap [x, y] [b] = if x = b then 1 else 0 := by
        simp [overlap, Nat.findGreatest_succ, List.suffix_cons_iff]
      rw [transition_stands_zero hd hs hb, delimiterFirstByte_eq h, List.take_zero,
        List.nil_append, hoverlap]
      split <;> simp [Lands, Stands]
  | 1, _ =>
      have hoverlap : overlap [x, y] [x, b] = if y = b then 2 else if x = b then 1 else 0 := by
        simp [overlap, Nat.findGreatest_succ, List.suffix_cons_iff]
      obtain rfl : state = .delimiterFirstByte := hs
      rw [transition_first hd h hb, if_pos rfl]
      show Lands 2 (overlap [x, y] [x, b]) _
      rw [hoverlap]
      split_ifs <;> simp [Lands, Stands]

theorem tracks_three (hd : o.MultiByteDelimiter) {x y z : UInt8} (h : o.delimiter = [x, y, z]) :
    Tracks o.delimiter o.transition (fun b => o.isSpecial b = false) (fun s => s = .delimiter)
      Stands := by
  refine tracks_of_lands hd fun k state b hk hs hb => ?_
  rw [h] at hk ⊢
  match k, hk with
  | 0, _ =>
      have hoverlap : overlap [x, y, z] [b] = if x = b then 1 else 0 := by
        simp [overlap, Nat.findGreatest_succ, List.suffix_cons_iff]
      rw [transition_stands_zero hd hs hb, delimiterFirstByte_eq h, List.take_zero,
        List.nil_append, hoverlap]
      split <;> simp [Lands, Stands]
  | 1, _ =>
      have hoverlap : overlap [x, y, z] [x, b] = if y = b then 2 else if x = b then 1 else 0 := by
        simp [overlap, Nat.findGreatest_succ, List.suffix_cons_iff]
      obtain rfl : state = .delimiterFirstByte := hs
      rw [transition_first hd h hb, if_neg (List.cons_ne_nil _ _)]
      show Lands 3 (overlap [x, y, z] [x, b]) _
      rw [hoverlap]
      split_ifs <;> simp [Lands, Stands]
  | 2, _ =>
      have hoverlap : overlap [x, y, z] [x, y, b] =
          if z = b then 3 else if x = y ∧ y = b then 2 else if x = b then 1 else 0 := by
        simp [overlap, Nat.findGreatest_succ, List.suffix_cons_iff]
      obtain rfl : state = .delimiterSecondByte := hs
      have htransition : o.transition .delimiterSecondByte b =
          if z = b then .delimiter else if x = y ∧ y = b then .delimiterSecondByte
          else if x = b then .delimiterFirstByte else .standard := by
        simp [transition, delimiterSecondByteTransition, delimiterBytesTransition_eq hd hb,
          delimiterFirstByte_eq h, delimiterByte, h, eq_comm (a := b)]
      rw [htransition]
      show Lands 3 (overlap [x, y, z] [x, y, b]) _
      rw [hoverlap]
      split_ifs <;> simp [Lands, Stands]

theorem transition_second (hd : o.MultiByteDelimiter) {x y z w : UInt8}
    (h : o.delimiter = [x, y, z, w]) {b : UInt8} (hb : o.isSpecial b = false) :
    o.transition .delimiterSecondByte b =
      if z = b then .delimiterThirdByte else if x = b then .delimiterFirstByte else .standard := by
  simp [transition, delimiterSecondByteTransition, delimiterBytesTransition_eq hd hb,
    delimiterFirstByte_eq h, delimiterByte, h, eq_comm (a := b)]

theorem transition_third (hd : o.MultiByteDelimiter) {x y z w : UInt8}
    (h : o.delimiter = [x, y, z, w]) {b : UInt8} (hb : o.isSpecial b = false) :
    o.transition .delimiterThirdByte b =
      if w = b then .delimiter else if x = y ∧ y = z ∧ y = b then .delimiterThirdByte
      else if x = z ∧ y = b then .delimiterSecondByte
      else if x = b then .delimiterFirstByte else .standard := by
  simp [transition, delimiterThirdByteTransition, delimiterBytesTransition_eq hd hb,
    delimiterFirstByte_eq h, delimiterByte, h, eq_comm (a := b)]

theorem tracks_four (hd : o.MultiByteDelimiter) {x y z w : UInt8}
    (h : o.delimiter = [x, y, z, w]) (hxy : x = y → y = z) :
    Tracks o.delimiter o.transition (fun b => o.isSpecial b = false) (fun s => s = .delimiter)
      Stands := by
  refine tracks_of_lands hd fun k state b hk hs hb => ?_
  rw [h] at hk ⊢
  match k, hk with
  | 0, _ =>
      have hoverlap : overlap [x, y, z, w] [b] = if x = b then 1 else 0 := by
        simp [overlap, Nat.findGreatest_succ, List.suffix_cons_iff]
      rw [transition_stands_zero hd hs hb, delimiterFirstByte_eq h, List.take_zero,
        List.nil_append, hoverlap]
      split <;> simp [Lands, Stands]
  | 1, _ =>
      have hoverlap : overlap [x, y, z, w] [x, b] =
          if y = b then 2 else if x = b then 1 else 0 := by
        simp [overlap, Nat.findGreatest_succ, List.suffix_cons_iff]
      obtain rfl : state = .delimiterFirstByte := hs
      rw [transition_first hd h hb, if_neg (List.cons_ne_nil _ _)]
      show Lands 4 (overlap [x, y, z, w] [x, b]) _
      rw [hoverlap]
      split_ifs <;> simp [Lands, Stands]
  | 2, _ =>
      -- the overlap of two bytes that a repeated first byte leaves is of three bytes here
      have hoverlap : overlap [x, y, z, w] [x, y, b] =
          if z = b then 3 else if x = b then 1 else 0 := by
        have hthree : overlap [x, y, z, w] [x, y, b] =
            if z = b then 3 else if x = y ∧ y = b then 2 else if x = b then 1 else 0 := by
          simp [overlap, Nat.findGreatest_succ, List.suffix_cons_iff]
        rw [hthree]
        by_cases hz : z = b
        · rw [if_pos hz, if_pos hz]
        · have hrepeat : ¬ (x = y ∧ y = b) := fun heq => hz ((hxy heq.1).symm.trans heq.2)
          rw [if_neg hz, if_neg hz, if_neg hrepeat]
      obtain rfl : state = .delimiterSecondByte := hs
      rw [transition_second hd h hb]
      show Lands 4 (overlap [x, y, z, w] [x, y, b]) _
      rw [hoverlap]
      split_ifs <;> simp [Lands, Stands]
  | 3, _ =>
      have hoverlap : overlap [x, y, z, w] [x, y, z, b] =
          if w = b then 4 else if x = y ∧ y = z ∧ z = b then 3
          else if x = z ∧ y = b then 2 else if x = b then 1 else 0 := by
        simp [overlap, Nat.findGreatest_succ, List.suffix_cons_iff]
      obtain rfl : state = .delimiterThirdByte := hs
      rw [transition_third hd h hb]
      show Lands 4 (overlap [x, y, z, w] [x, y, z, b]) _
      have hsame : (x = y ∧ y = z ∧ y = b) ↔ x = y ∧ y = z ∧ z = b :=
        and_congr_right fun _ => and_congr_right fun hyz => hyz ▸ Iff.rfl
      rw [hoverlap, if_congr hsame rfl rfl]
      split_ifs <;> simp [Lands, Stands]

/-! ## A first byte that is repeated once -/

/-- How many `a` a value ends with. -/
def trailing (a : UInt8) (value : Bytes) : Nat := (value.rtakeWhile fun b => b = a).length

/-- How many `a` stand in front. -/
def leading (a : UInt8) (bytes : Bytes) : Nat := (bytes.takeWhile fun b => b = a).length

theorem trailing_reverse (a : UInt8) (bytes : Bytes) :
    trailing a bytes.reverse = leading a bytes := by
  rw [trailing, leading, List.rtakeWhile, List.reverse_reverse, List.length_reverse]

theorem leading_cons (a : UInt8) (b : UInt8) (bytes : Bytes) :
    leading a (b :: bytes) = if b = a then leading a bytes + 1 else 0 := by
  rw [leading, List.takeWhile_cons]
  by_cases h : b = a
  · rw [if_pos h, if_pos (decide_eq_true h), List.length_cons, leading]
  · rw [if_neg h, if_neg (by simpa using h), List.length_nil]

/-- What the states remember of a text for a delimiter `aaz.`; the last byte stands first. -/
def lostOverlap (a z : UInt8) : Bytes → Nat
  | [] => 0
  | b :: bytes =>
      if b = a then if Even (leading a bytes) then 1 else 2
      else if b = z ∧ 0 < leading a bytes ∧ Even (leading a bytes) then 3 else 0

variable {a z w : UInt8}

theorem lostOverlap_cases (a z : UInt8) (bytes : Bytes) :
    (lostOverlap a z bytes = 1 ∧ ¬ Even (leading a bytes)) ∨
      (lostOverlap a z bytes = 2 ∧ 0 < leading a bytes ∧ Even (leading a bytes)) ∨
        ((lostOverlap a z bytes = 0 ∨ lostOverlap a z bytes = 3) ∧ leading a bytes = 0) := by
  cases bytes with
  | nil => exact .inr (.inr ⟨.inl rfl, rfl⟩)
  | cons b bytes =>
      rw [lostOverlap, leading_cons]
      by_cases hb : b = a
      · rw [if_pos hb, if_pos hb, Nat.even_add_one]
        by_cases heven : Even (leading a bytes)
        · exact .inl ⟨if_pos heven, not_not.mpr heven⟩
        · exact .inr (.inl ⟨if_neg heven, Nat.succ_pos _, heven⟩)
      · rw [if_neg hb, if_neg hb]
        refine .inr (.inr ⟨?_, rfl⟩)
        split
        · exact .inr rfl
        · exact .inl rfl

theorem lostOverlap_restart {bytes : Bytes} (hzero : leading a bytes = 0) {b : UInt8} :
    (if a = b then CSVState.delimiterFirstByte else .standard) ≠ .delimiter ∧
      Stands (if b = a then if Even (leading a bytes) then 1 else 2
        else if b = z ∧ 0 < leading a bytes ∧ Even (leading a bytes) then 3 else 0)
        (if a = b then .delimiterFirstByte else .standard) := by
  by_cases hba : a = b
  · rw [if_pos hba, if_pos hba.symm, hzero, if_pos Even.zero]
    exact ⟨nofun, rfl⟩
  · rw [if_neg hba, if_neg (Ne.symm hba), hzero, if_neg fun h => h.2.1.false]
    exact ⟨nofun, .inr rfl⟩

/-- One more byte that is no `w` after `aaz`. -/
theorem lostOverlap_step (hd : o.MultiByteDelimiter) (h : o.delimiter = [a, a, z, w]) (hne : a ≠ z)
    {bytes : Bytes} {state : CSVState} (hs : Stands (lostOverlap a z bytes) state) {b : UInt8}
    (hb : o.isSpecial b = false) (hnot : ¬ (lostOverlap a z bytes = 3 ∧ w = b)) :
    o.transition state b ≠ .delimiter ∧
      Stands (lostOverlap a z (b :: bytes)) (o.transition state b) := by
  rw [lostOverlap]
  rcases lostOverlap_cases a z bytes with ⟨hk, hodd⟩ | ⟨hk, hpos, heven⟩ | ⟨hk | hk, hzero⟩
  · rw [hk] at hs
    obtain rfl : state = .delimiterFirstByte := hs
    rw [transition_first hd h hb, if_neg (List.cons_ne_nil _ _)]
    by_cases hba : a = b
    · rw [if_pos hba, if_pos hba.symm, if_neg hodd]
      exact ⟨nofun, rfl⟩
    · rw [if_neg hba, if_neg hba, if_neg (Ne.symm hba), if_neg fun hz => hodd hz.2.2]
      exact ⟨nofun, .inr rfl⟩
  · rw [hk] at hs
    obtain rfl : state = .delimiterSecondByte := hs
    rw [transition_second hd h hb]
    by_cases hbz : z = b
    · subst hbz
      rw [if_pos rfl, if_neg (Ne.symm hne), if_pos ⟨rfl, hpos, heven⟩]
      exact ⟨nofun, rfl⟩
    · rw [if_neg hbz]
      by_cases hba : a = b
      · rw [if_pos hba, if_pos hba.symm, if_pos heven]
        exact ⟨nofun, rfl⟩
      · rw [if_neg hba, if_neg (Ne.symm hba), if_neg fun hz => hbz hz.1.symm]
        exact ⟨nofun, .inr rfl⟩
  · rw [hk] at hs
    rw [transition_stands_zero hd hs hb, delimiterFirstByte_eq h]
    exact lostOverlap_restart hzero
  · rw [hk] at hs
    obtain rfl : state = .delimiterThirdByte := hs
    have hw : ¬ w = b := fun heq => hnot ⟨hk, heq⟩
    rw [transition_third hd h hb, if_neg hw, if_neg fun heq => hne heq.2.1,
      if_neg fun heq => hne heq.1]
    exact lostOverlap_restart hzero

theorem delimiter_suffix_iff {bytes : Bytes} {b : UInt8} :
    [a, a, z, w] <:+ bytes.reverse ++ [b] ↔ w = b ∧ ∃ rest, bytes = z :: a :: a :: rest := by
  have happend : [a, a, z, w] = [a, a, z] ++ [w] := rfl
  rw [happend, suffix_append_singleton]
  refine and_congr_right fun _ => ?_
  rw [← List.reverse_prefix, List.reverse_reverse]
  constructor
  · rintro ⟨rest, rfl⟩
    exact ⟨rest, rfl⟩
  · rintro ⟨rest, rfl⟩
    exact ⟨rest, rfl⟩

theorem lostOverlap_third (hne : a ≠ z) {rest : Bytes} :
    lostOverlap a z (z :: a :: a :: rest) = if Even (leading a rest) then 3 else 0 := by
  rw [lostOverlap, if_neg (Ne.symm hne), leading_cons, if_pos rfl, leading_cons, if_pos rfl]
  have heven : Even (leading a rest + 1 + 1) ↔ Even (leading a rest) := by
    rw [Nat.even_add_one, Nat.even_add_one, not_not]
  simp [heven]

theorem exists_of_lostOverlap_third {bytes : Bytes} (h : lostOverlap a z bytes = 3) :
    ∃ rest, bytes = z :: a :: a :: rest := by
  cases bytes with
  | nil => cases h
  | cons b bytes =>
      rw [lostOverlap] at h
      split at h
      · split at h <;> cases h
      · split at h
        · rename_i hz
          obtain ⟨rfl, hpos, heven⟩ := hz
          match bytes with
          | [] => exact absurd hpos (Nat.lt_irrefl 0)
          | x :: bytes =>
              rw [leading_cons] at hpos heven
              split at hpos
              · rename_i hx
                rw [if_pos hx, Nat.even_add_one] at heven
                subst hx
                match bytes with
                | [] => exact absurd Even.zero heven
                | y :: bytes =>
                    rw [leading_cons] at heven
                    split at heven
                    · rename_i hy
                      exact ⟨bytes, by rw [hy]⟩
                    · exact absurd Even.zero heven
              · exact absurd hpos (Nat.lt_irrefl 0)
        · cases h

/-- A delimiter is missed exactly after an odd number of its first byte. -/
theorem marks_lostOverlap (hd : o.MultiByteDelimiter) (h : o.delimiter = [a, a, z, w])
    (hne : a ≠ z) {text : Bytes} (htext : ∀ b ∈ text, o.isSpecial b = false) {bytes : Bytes}
    {state : CSVState} (hs : Stands (lostOverlap a z bytes) state) :
    (run o.transition state text).map (fun s => decide (s = .delimiter)) =
        marks o.delimiter bytes.reverse text ↔
      ∀ value ∈ values o.delimiter bytes.reverse text, Even (trailing a value) := by
  induction text generalizing bytes state with
  | nil => exact ⟨fun _ value hvalue => absurd hvalue List.not_mem_nil, fun _ => rfl⟩
  | cons b text ih =>
      obtain ⟨hb, hrest⟩ := List.forall_mem_cons.mp htext
      rw [run, List.map_cons, marks, values]
      by_cases hsuffix : o.delimiter <:+ bytes.reverse ++ [b]
      · rw [if_pos hsuffix, if_pos hsuffix]
        rw [h] at hsuffix
        obtain ⟨rfl, rest, rfl⟩ := delimiter_suffix_iff.mp hsuffix
        have hvalue : ((z :: a :: a :: rest).reverse ++ [w]).take
            ((z :: a :: a :: rest).reverse.length + 1 - o.delimiter.length) = rest.reverse := by
          have hsplit : (z :: a :: a :: rest).reverse ++ [w] = rest.reverse ++ [a, a, z, w] := by
            simp only [List.reverse_cons, List.append_assoc, List.cons_append, List.nil_append]
          have hlength : (z :: a :: a :: rest).reverse.length + 1 - o.delimiter.length =
              rest.reverse.length := by
            simp only [h, List.length_reverse, List.length_cons, List.length_nil]
            omega
          rw [hsplit, hlength, List.take_left]
        rw [hvalue, List.forall_mem_cons, trailing_reverse]
        rw [lostOverlap_third hne] at hs
        by_cases heven : Even (leading a rest)
        · rw [if_pos heven] at hs
          obtain rfl : state = .delimiterThirdByte := hs
          have hfound : o.transition .delimiterThirdByte w = .delimiter := by
            rw [transition_third hd h hb, if_pos rfl]
          rw [hfound, List.cons.injEq, and_iff_right (decide_eq_true rfl), and_iff_right heven]
          exact @ih hrest [] .delimiter (.inl (.inr (.inr rfl)))
        · rw [if_neg heven] at hs
          have hmissed : o.transition state w ≠ .delimiter := by
            rw [transition_stands_zero hd hs hb]
            split <;> intro hstate <;> cases hstate
          rw [decide_eq_false hmissed]
          refine ⟨fun heq => ?_, fun hall => absurd hall.1 heven⟩
          cases (List.cons.inj heq).1
      · rw [if_neg hsuffix, if_neg hsuffix]
        rw [h, delimiter_suffix_iff] at hsuffix
        obtain ⟨hstate, hstands⟩ := lostOverlap_step hd h hne hs hb fun hthird =>
          hsuffix ⟨hthird.2, exists_of_lostOverlap_third hthird.1⟩
        have hfurther := ih hrest hstands
        rw [List.reverse_cons] at hfurther
        rw [decide_eq_false hstate, List.cons.injEq, hfurther]
        exact and_iff_right rfl

/-- A delimiter of four bytes of which the second repeats the first, and the third does not. -/
def RepeatsFirstByte (o : CSVStateMachineOptions) : Prop :=
  ∃ a z w, o.delimiter = [a, a, z, w] ∧ a ≠ z

/-- The table finds the delimiters of a run exactly if none of them follows an odd number of first
bytes that the delimiter repeats. -/
theorem run_delimiter_iff (hd : o.MultiByteDelimiter) {start : CSVState} (hstart : FieldStart start)
    {text : Bytes} (htext : ∀ b ∈ text, o.isSpecial b = false) :
    (run o.transition start text).map (fun s => decide (s = .delimiter)) =
        marks o.delimiter [] text ↔
      (o.RepeatsFirstByte →
        ∀ value ∈ values o.delimiter [] text, Even (trailing o.delimiterFirstByte value)) := by
  have hmarks (h : Tracks o.delimiter o.transition (fun b => o.isSpecial b = false)
      (fun s => s = .delimiter) Stands) :
      (run o.transition start text).map (fun s => decide (s = .delimiter)) =
        marks o.delimiter [] text := by
    have hnil : overlap o.delimiter [] = 0 := overlap_nil h.ne_nil
    exact h.marks htext (hnil ▸ List.length_pos_of_ne_nil h.ne_nil) (hnil ▸ .inl hstart)
  have htracks (h : Tracks o.delimiter o.transition (fun b => o.isSpecial b = false)
      (fun s => s = .delimiter) Stands) (hnot : ¬ o.RepeatsFirstByte) :
      (run o.transition start text).map (fun s => decide (s = .delimiter)) =
        marks o.delimiter [] text ↔
      (o.RepeatsFirstByte →
        ∀ value ∈ values o.delimiter [] text, Even (trailing o.delimiterFirstByte value)) :=
    ⟨fun _ hrepeats => absurd hrepeats hnot, fun _ => hmarks h⟩
  have hlength := hd.length
  match hdelimiter : o.delimiter with
  | [] => rw [hdelimiter] at hlength; cases hlength.1
  | [_] => rw [hdelimiter] at hlength; exact absurd hlength.1 (Nat.lt_irrefl 1)
  | [x, y] =>
      have hnot : ¬ o.RepeatsFirstByte := by
        rintro ⟨_, _, _, hfour, -⟩
        rw [hdelimiter] at hfour
        cases hfour
      exact hdelimiter ▸ htracks (tracks_two hd hdelimiter) hnot
  | [x, y, z] =>
      have hnot : ¬ o.RepeatsFirstByte := by
        rintro ⟨_, _, _, hfour, -⟩
        rw [hdelimiter] at hfour
        cases hfour
      exact hdelimiter ▸ htracks (tracks_three hd hdelimiter) hnot
  | [x, y, z, w] =>
      by_cases hrepeats : x = y ∧ y ≠ z
      · obtain ⟨rfl, hne⟩ := hrepeats
        have hstands : Stands (lostOverlap x z []) start := .inl hstart
        have hlost := marks_lostOverlap hd hdelimiter hne htext hstands
        rw [List.reverse_nil] at hlost
        rw [← hdelimiter, hlost, delimiterFirstByte_eq hdelimiter]
        exact ⟨fun h _ => h, fun h => h ⟨_, _, _, hdelimiter, hne⟩⟩
      · have hnot : ¬ o.RepeatsFirstByte := by
          rintro ⟨a, z', w', hfour, hne⟩
          rw [hdelimiter] at hfour
          cases hfour
          exact hrepeats ⟨rfl, hne⟩
        have hxy : x = y → y = z := fun hxy => not_not.mp fun hyz => hrepeats ⟨hxy, hyz⟩
        exact hdelimiter ▸ htracks (tracks_four hd hdelimiter hxy) hnot
  | _ :: _ :: _ :: _ :: _ :: rest =>
      rw [hdelimiter] at hlength
      simp only [List.length_cons] at hlength
      omega

end CSVStateMachineOptions

end Csv
end MiniDuck
