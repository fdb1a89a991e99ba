import MiniDuck.Bignum

/-!
# Texts of BIGNUM values

A text is taken apart into a sign, zeros, digits and what follows.
`VarcharFormatting` finds these parts (`varcharFormatting_valid`) if the
text is that of a numeral (`exists_numeral`, `valid_ofNumeral`), and no
others.
-/

namespace MiniDuck

namespace Bignum

open Numeral

/-! ## Characters -/

theorem characterIsDigit_digitChar (d : Fin 10) : characterIsDigit (digitChar d) = true := by
  revert d
  decide

theorem digitChar_ne (d : Fin 10) : digitChar d ≠ 43 ∧ digitChar d ≠ 45 ∧ digitChar d ≠ 46 := by
  revert d
  decide

theorem digitChar_eq_zero (d : Fin 10) : digitChar d = 48 ↔ d = 0 := by
  revert d
  decide

theorem toNat_digitChar (d : Fin 10) : (digitChar d).toNat - 48 = d := by
  revert d
  decide

theorem exists_digit {c : UInt8} (h : characterIsDigit c = true) : ∃ d, digitChar d = c := by
  rw [characterIsDigit, Bool.and_eq_true, decide_eq_true_eq, decide_eq_true_eq,
    UInt8.le_iff_toNat_le, UInt8.le_iff_toNat_le] at h
  obtain ⟨hlow, hhigh⟩ := h
  change 48 ≤ c.toNat at hlow
  change c.toNat ≤ 57 at hhigh
  refine ⟨⟨c.toNat - 48, by omega⟩, ?_⟩
  rw [digitChar, Nat.add_sub_cancel' hlow, UInt8.ofNat_toNat]

theorem exists_digits : ∀ {chars : List UInt8}, chars.all characterIsDigit = true →
    ∃ digits : List (Fin 10), digits.map digitChar = chars
  | [], _ => ⟨[], rfl⟩
  | c :: chars, h => by
      rw [List.all_cons, Bool.and_eq_true] at h
      obtain ⟨d, hd⟩ := exists_digit h.1
      obtain ⟨digits, hdigits⟩ := exists_digits h.2
      exact ⟨d :: digits, by rw [List.map_cons, hd, hdigits]⟩

/-! ## Runs of characters -/

theorem takeWhile_run {p : UInt8 → Bool} {run rest : List UInt8} (hrun : ∀ c ∈ run, p c = true)
    (hrest : ∀ c ∈ rest.head?, p c = false) : (run ++ rest).takeWhile p = run := by
  rw [List.takeWhile_append_of_pos hrun]
  cases rest with
  | nil => simp
  | cons c rest => rw [List.takeWhile_cons, hrest c rfl]; simp

theorem head_dropWhile {α : Type} {p : α → Bool} {l : List α} :
    ∀ a ∈ (l.dropWhile p).head?, p a = false := by
  intro a ha
  have h := List.head?_dropWhile_not p l
  rw [Option.mem_def.mp ha] at h
  exact h

/-- A text in parts: a sign, zeros, digits from the first that is not zero, and what follows. -/
structure Parts where
  sign : Option Bool
  zeros : Nat
  run : List UInt8
  tail : List UInt8
  no_sign : sign = none →
    ∀ c ∈ (List.replicate zeros 48 ++ (run ++ tail)).head?, c ≠ 43 ∧ c ≠ 45
  run_digits : ∀ c ∈ run, characterIsDigit c = true
  run_head : ∀ c ∈ (run ++ tail).head?, c ≠ 48
  tail_head : ∀ c ∈ tail.head?, characterIsDigit c = false

namespace Parts

variable (parts : Parts)

def text : List UInt8 :=
  signText parts.sign ++ (List.replicate parts.zeros 48 ++ (parts.run ++ parts.tail))

def fraction : List UInt8 := parts.tail.drop 1

/-- There is a digit, and nothing but digits behind a decimal point. -/
structure Valid : Prop where
  point : ∀ c ∈ parts.tail.head?, c = 46
  digits : parts.fraction.all characterIsDigit = true
  some_digit : parts.zeros ≠ 0 ∨ parts.run ≠ [] ∨ parts.fraction ≠ []

def start : Nat := (signText parts.sign).length + parts.zeros

def roundUp : Bool := 53 ≤ parts.fraction.headD 0

def formatting : Formatting :=
  { startPos := parts.start
    endPos := parts.start + parts.run.length
    isNegative := parts.sign = some true
    isZero := parts.run.isEmpty && !parts.roundUp
    shouldRoundUp := parts.roundUp }

theorem exists_text (value : List UInt8) : ∃ parts : Parts, parts.text = value := by
  have hsplit : ∀ rest : List UInt8, ∃ zeros run tail,
      List.replicate zeros 48 ++ (run ++ tail) = rest ∧ (∀ c ∈ run, characterIsDigit c = true) ∧
        (∀ c ∈ (run ++ tail).head?, c ≠ 48) ∧ ∀ c ∈ tail.head?, characterIsDigit c = false := by
    intro rest
    have hzeros : rest.takeWhile (· = 48) =
        List.replicate (rest.takeWhile (· = 48)).length 48 :=
      List.eq_replicate_of_mem fun c hc => by simpa using List.mem_takeWhile_imp hc
    refine ⟨(rest.takeWhile (· = 48)).length,
      (rest.dropWhile (· = 48)).takeWhile characterIsDigit,
      (rest.dropWhile (· = 48)).dropWhile characterIsDigit, ?_,
      fun c hc => List.mem_takeWhile_imp hc, ?_, head_dropWhile⟩
    · rw [List.takeWhile_append_dropWhile, ← hzeros, List.takeWhile_append_dropWhile]
    · rw [List.takeWhile_append_dropWhile]
      exact fun c hc => by simpa using head_dropWhile c hc
  cases value with
  | nil => exact ⟨⟨none, 0, [], [], by simp, by simp, by simp, by simp⟩, rfl⟩
  | cons c rest =>
      by_cases hplus : c = 43
      · obtain ⟨zeros, run, tail, hrest, hdigits, hhead, htail⟩ := hsplit rest
        exact ⟨⟨some false, zeros, run, tail, by simp, hdigits, hhead, htail⟩,
          by rw [hplus]; exact congrArg (43 :: ·) hrest⟩
      · by_cases hminus : c = 45
        · obtain ⟨zeros, run, tail, hrest, hdigits, hhead, htail⟩ := hsplit rest
          exact ⟨⟨some true, zeros, run, tail, by simp, hdigits, hhead, htail⟩,
            by rw [hminus]; exact congrArg (45 :: ·) hrest⟩
        · obtain ⟨zeros, run, tail, hrest, hdigits, hhead, htail⟩ := hsplit (c :: rest)
          refine ⟨⟨none, zeros, run, tail, fun _ d hd => ?_, hdigits, hhead, htail⟩, hrest⟩
          rw [hrest, List.head?_cons, Option.mem_some] at hd
          rw [← hd]
          exact ⟨hplus, hminus⟩

/-! ## Where the formatting finds the parts -/

variable {parts}

theorem length_text : parts.text.length =
    parts.start + parts.run.length + parts.tail.length := by
  simp only [text, start, List.length_append, List.length_replicate]
  omega

theorem headD_text : (parts.text.headD 0 = 45 ↔ parts.sign = some true) ∧
    (parts.text.headD 0 = 43 ↔ parts.sign = some false) := by
  cases hsign : parts.sign with
  | some sign => cases sign <;> simp [text, hsign, signText]
  | none =>
      have hhead := parts.no_sign hsign
      rw [text, hsign, signText, List.nil_append]
      cases hrest : List.replicate parts.zeros 48 ++ (parts.run ++ parts.tail) with
      | nil => decide
      | cons c rest =>
          rw [hrest] at hhead
          obtain ⟨hplus, hminus⟩ := hhead c rfl
          simp [hplus, hminus]

theorem signEnd_eq : (if parts.text.headD 0 = 43 then
    (if decide (parts.sign = some true) = true then 1 else 0) + 1
    else if decide (parts.sign = some true) = true then 1 else 0) =
      (signText parts.sign).length := by
  simp only [headD_text.2, decide_eq_true_eq]
  cases parts.sign with
  | none => rfl
  | some sign => cases sign <;> rfl

theorem zeros_eq : (parts.text.drop (signText parts.sign).length).takeWhile (· = 48) =
    List.replicate parts.zeros 48 := by
  rw [text, List.drop_left]
  refine takeWhile_run (fun c hc => by simpa using List.eq_of_mem_replicate hc) ?_
  exact fun c hc => by simpa using parts.run_head c hc

theorem drop_start : parts.text.drop parts.start = parts.run ++ parts.tail := by
  rw [text, ← List.append_assoc]
  exact List.drop_left' (by rw [List.length_append, List.length_replicate, start])

theorem run_eq : (parts.text.drop parts.start).takeWhile characterIsDigit = parts.run := by
  rw [drop_start]
  exact takeWhile_run parts.run_digits parts.tail_head

theorem drop_run : parts.text.drop (parts.start + parts.run.length) = parts.tail := by
  rw [← List.drop_drop, drop_start]
  exact List.drop_left

theorem varcharFormatting_eq : varcharFormatting parts.text =
    if parts.text.length = 0 then none
    else if parts.start = parts.text.length then
      if decide (0 < parts.zeros) = true then
        some ⟨parts.start, parts.text.length, parts.sign = some true, true, false⟩
      else none
    else if parts.start + parts.run.length < parts.text.length then
      if parts.tail.headD 0 ≠ 46 then none
      else if !parts.fraction.all characterIsDigit then none
      else if parts.start + parts.run.length = parts.start then
        if !decide (0 < parts.zeros) && parts.fraction.isEmpty then none
        else if parts.roundUp then
          some ⟨parts.start, parts.start + parts.run.length, parts.sign = some true, false, true⟩
        else some ⟨parts.start, parts.start + parts.run.length, parts.sign = some true, true, false⟩
      else some ⟨parts.start, parts.start + parts.run.length, parts.sign = some true, false,
        parts.roundUp⟩
    else some ⟨parts.start, parts.text.length, parts.sign = some true, false, false⟩ := by
  have hhead : parts.text.getD (parts.start + parts.run.length) 0 = parts.tail.headD 0 := by
    rw [← parts.drop_run, List.headD_eq_head?_getD, List.head?_drop, List.getD_eq_getElem?_getD]
  have hfraction : parts.text.drop (parts.start + parts.run.length + 1) = parts.fraction := by
    rw [← List.drop_drop, parts.drop_run, fraction]
  have hfirst :
      parts.text.getD (parts.start + parts.run.length + 1) 0 = parts.fraction.headD 0 := by
    rw [← hfraction, List.headD_eq_head?_getD, List.head?_drop, List.getD_eq_getElem?_getD]
  have hempty : decide (parts.start + parts.run.length + 1 < parts.text.length) =
      !parts.fraction.isEmpty := by
    rw [← hfraction, Bool.eq_iff_iff]
    simp
  have hround : shouldRoundDecimalDigits parts.text (parts.start + parts.run.length + 1)
      parts.text.length = parts.roundUp := by
    rw [shouldRoundDecimalDigits, hfirst, hempty, roundUp]
    cases parts.fraction with
    | nil => rfl
    | cons c fraction => rfl
  simp only [varcharFormatting, headD_text.1, signEnd_eq, zeros_eq, List.length_replicate]
  rw [show (signText parts.sign).length + parts.zeros = parts.start from rfl]
  simp only [run_eq, hhead, hfraction, hround, hempty, Bool.not_not]

theorem varcharFormatting_valid (h : parts.Valid) :
    varcharFormatting parts.text = some parts.formatting := by
  obtain ⟨hpoint, hdigits, hsome⟩ := h
  have hlength := parts.length_text
  rw [varcharFormatting_eq, formatting]
  cases htail : parts.tail with
  | nil =>
      have hfraction : parts.fraction = [] := by rw [fraction, htail, List.drop_nil]
      have hround : parts.roundUp = false := by
        rw [roundUp, hfraction]
        rfl
      rw [htail, List.length_nil, Nat.add_zero] at hlength
      rw [hround, hlength]
      cases hrun : parts.run with
      | nil =>
          have hzeros : 0 < parts.zeros := by
            obtain hzeros | hrun' | hfraction' := hsome
            · exact Nat.pos_of_ne_zero hzeros
            · exact absurd hrun hrun'
            · exact absurd hfraction hfraction'
          have hstart : 0 < parts.start := by
            rw [start]
            omega
          simp [hzeros, hstart.ne']
      | cons c run => simp
  | cons c fraction =>
      have hc : c = 46 := hpoint c (by rw [htail]; rfl)
      rw [htail, List.length_cons] at hlength
      rw [if_neg (by omega), if_neg (by omega), if_pos (by omega), List.headD_cons,
        if_neg (not_not.mpr hc), hdigits]
      cases hrun : parts.run with
      | nil =>
          have hnone : (!decide (0 < parts.zeros) && parts.fraction.isEmpty) = false := by
            rw [Bool.and_eq_false_iff]
            obtain hzeros | hrun' | hfraction' := hsome
            · exact Or.inl (by simpa using Nat.pos_of_ne_zero hzeros)
            · exact absurd hrun hrun'
            · exact Or.inr (by simpa using hfraction')
          rw [if_neg (by decide), List.length_nil, Nat.add_zero, if_pos rfl, hnone,
            if_neg (by decide)]
          cases hround : parts.roundUp <;> simp
      | cons d run => simp

theorem varcharFormatting_invalid (h : ¬ parts.Valid) : varcharFormatting parts.text = none := by
  have hlength := parts.length_text
  rw [varcharFormatting_eq]
  cases htail : parts.tail with
  | nil =>
      have hfraction : parts.fraction = [] := by rw [fraction, htail, List.drop_nil]
      have hnone : parts.zeros = 0 ∧ parts.run = [] := by
        by_contra hsome
        refine h ⟨by simp [htail], by rw [hfraction]; rfl, ?_⟩
        tauto
      obtain ⟨hzeros, hrun⟩ := hnone
      rw [htail, hrun] at hlength
      rw [List.length_nil] at hlength
      change parts.text.length = parts.start at hlength
      rw [hlength, hzeros, if_pos rfl, if_neg (show ¬ decide (0 < 0) = true by decide), ite_self]
  | cons c fraction =>
      rw [htail, List.length_cons] at hlength
      rw [if_neg (by omega), if_neg (by omega), if_pos (by omega), List.headD_cons]
      by_cases hc : c = 46
      · rw [if_neg (not_not.mpr hc)]
        by_cases hdigits : parts.fraction.all characterIsDigit = true
        · have hnone : parts.zeros = 0 ∧ parts.run = [] ∧ parts.fraction = [] := by
            by_contra hsome
            refine h ⟨?_, hdigits, by tauto⟩
            rw [htail]
            rintro d hd
            rwa [← Option.some.inj hd]
          obtain ⟨hzeros, hrun, hfraction⟩ := hnone
          rw [hdigits, if_neg (by decide), hrun, hzeros, hfraction]
          simp
        · rw [if_pos (by simpa using hdigits)]
      · rw [if_pos hc]

/-! ## Numerals -/

/-- The parts of a valid text are those of a numeral. -/
theorem exists_numeral (h : parts.Valid) : ∃ n : Numeral, n.text = parts.text := by
  obtain ⟨hpoint, hdigits, hsome⟩ := h
  obtain ⟨run, hrun⟩ := exists_digits (List.all_eq_true.mpr parts.run_digits)
  obtain ⟨fraction, hfraction⟩ := exists_digits hdigits
  have htail : parts.tail = fractionText (if parts.tail = [] then none else some fraction) := by
    cases htail : parts.tail with
    | nil => rfl
    | cons c tail =>
        have hc : c = 46 := hpoint c (by rw [htail]; rfl)
        have hrest : parts.fraction = tail := by rw [Parts.fraction, htail]; rfl
        rw [if_neg (by simp), fractionText, hfraction, hrest, hc]
  have hnumeral : List.replicate parts.zeros 0 ++ run ++
      (if parts.tail = [] then none else some fraction).getD [] ≠ [] := by
    intro hnil
    rw [List.append_eq_nil_iff, List.append_eq_nil_iff, List.replicate_eq_nil_iff] at hnil
    obtain ⟨⟨hzeros, hrun'⟩, hfraction'⟩ := hnil
    rw [hrun'] at hrun
    obtain hzeros' | hrun'' | hfraction'' := hsome
    · exact hzeros' hzeros
    · exact hrun'' hrun.symm
    · split_ifs at hfraction' with htail'
      · rw [Parts.fraction, htail'] at hfraction''
        exact hfraction'' rfl
      · rw [Option.getD_some] at hfraction'
        rw [hfraction'] at hfraction
        exact hfraction'' hfraction.symm
  refine ⟨⟨parts.sign, List.replicate parts.zeros 0 ++ run,
    if parts.tail = [] then none else some fraction, hnumeral⟩, ?_⟩
  rw [Numeral.text, Parts.text, ← htail, List.map_append, List.map_replicate, hrun,
    List.append_assoc, List.append_assoc]
  rfl

theorem zeros_append (digits : List (Fin 10)) :
    List.replicate (digits.takeWhile (· = 0)).length 48 ++
      (digits.dropWhile (· = 0)).map digitChar = digits.map digitChar := by
  have hzeros : digits.takeWhile (· = 0) =
      List.replicate (digits.takeWhile (· = 0)).length 0 :=
    List.eq_replicate_of_mem fun d hd => by simpa using List.mem_takeWhile_imp hd
  have hmap : (digits.takeWhile (· = 0)).map digitChar =
      List.replicate (digits.takeWhile (· = 0)).length 48 := by
    rw [hzeros, List.map_replicate, List.length_replicate]
    rfl
  rw [← hmap, ← List.map_append, List.takeWhile_append_dropWhile]

theorem head_fractionText {fraction : Option (List (Fin 10))} :
    ∀ c ∈ (fractionText fraction).head?, c = 46 := by
  intro c hc
  cases fraction with
  | none => exact absurd hc (by simp [fractionText])
  | some fraction => simpa [fractionText] using hc.symm

/-- The first character is that of the first digit, or the decimal point. -/
theorem head_digits {digits : List (Fin 10)} {fraction : Option (List (Fin 10))} :
    ∀ c ∈ (digits.map digitChar ++ fractionText fraction).head?,
      (∃ d ∈ digits.head?, digitChar d = c) ∨ c = 46 := by
  intro c hc
  cases digits with
  | nil => exact Or.inr (head_fractionText c hc)
  | cons d digits => exact Or.inl ⟨d, rfl, by simpa using hc⟩

def ofNumeral (n : Numeral) : Parts where
  sign := n.sign
  zeros := (n.integer.takeWhile (· = 0)).length
  run := (n.integer.dropWhile (· = 0)).map digitChar
  tail := fractionText n.fraction
  no_sign := by
    intro _ c hc
    rw [← List.append_assoc, zeros_append] at hc
    obtain ⟨d, -, rfl⟩ | rfl := head_digits c hc
    · exact ⟨(digitChar_ne d).1, (digitChar_ne d).2.1⟩
    · decide
  run_digits := by
    intro c hc
    obtain ⟨d, -, rfl⟩ := List.mem_map.mp hc
    exact characterIsDigit_digitChar d
  run_head := by
    intro c hc
    obtain ⟨d, hd, rfl⟩ | rfl := head_digits c hc
    · have hzero : decide (d = 0) = false := head_dropWhile d hd
      intro hc'
      rw [digitChar_eq_zero] at hc'
      rw [hc'] at hzero
      exact absurd hzero (by decide)
    · decide
  tail_head := by
    intro c hc
    rw [head_fractionText c hc]
    decide

theorem text_ofNumeral (n : Numeral) : (ofNumeral n).text = n.text := by
  rw [text, Numeral.text, ← List.append_assoc (List.replicate _ _), ← List.append_assoc]
  exact congrArg (fun l => signText n.sign ++ l ++ fractionText n.fraction)
    (zeros_append n.integer)

theorem fraction_ofNumeral (n : Numeral) :
    (ofNumeral n).fraction = (n.fraction.getD []).map digitChar := by
  show (fractionText n.fraction).drop 1 = _
  cases n.fraction with
  | none => rfl
  | some fraction => rfl

theorem roundUp_ofNumeral (n : Numeral) :
    (ofNumeral n).roundUp = roundsUp (n.fraction.getD []) := by
  rw [roundUp, fraction_ofNumeral]
  cases n.fraction.getD [] with
  | nil => rfl
  | cons d fraction =>
      have hdigit : ∀ d : Fin 10, decide (53 ≤ digitChar d) = decide (5 ≤ d.val) := by decide
      exact hdigit d

theorem valid_ofNumeral (n : Numeral) : (ofNumeral n).Valid := by
  refine ⟨head_fractionText, ?_, ?_⟩
  · rw [fraction_ofNumeral, List.all_map]
    exact List.all_eq_true.mpr fun d _ => characterIsDigit_digitChar d
  · by_contra hnone
    rw [not_or, not_or, not_not, not_not, not_not, fraction_ofNumeral] at hnone
    obtain ⟨hzeros, hrun, hfraction⟩ := hnone
    have hinteger := zeros_append n.integer
    have hzeros' : (n.integer.takeWhile (· = 0)).length = 0 := hzeros
    have hrun' : (n.integer.dropWhile (· = 0)).map digitChar = [] := hrun
    rw [hzeros', hrun'] at hinteger
    refine n.some_digit ?_
    rw [List.map_eq_nil_iff.mp hinteger.symm, List.map_eq_nil_iff.mp hfraction, List.append_nil]

end Parts

end Bignum

end MiniDuck
