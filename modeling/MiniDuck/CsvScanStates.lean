import MiniDuck.CsvByteSkipper

/-!
# The states of a scan

The loop of the CSV scanners makes a transition for one byte and then lets
the byte skipper pass the bytes that keep the state. A byte is passed if no
stop pattern matches it or if the skip table of the state has it; both keep
the state (`transition_unmatched`, `transition_skips`), provided that quoted
states occur only where there is a quote (`Quotable`). So the scan visits
the states of a scan byte by byte (`visited_process`), and among them the
delimiters of a run (`multiByteDelimiter_iff`).
-/

namespace MiniDuck

namespace SwarBlock.BytePattern

theorem matches_byte (b : UInt8) : Matches b 0xff b := rfl

theorem matches_either_left (a b : UInt8) : Matches a (~~~(a ^^^ b)) a := rfl

theorem matches_either_right (a b : UInt8) : Matches a (~~~(a ^^^ b)) b := by
  have hagree (a b : BitVec 8) : b &&& ~~~(a ^^^ b) = a &&& ~~~(a ^^^ b) := by
    ext i hi
    simp only [BitVec.getElem_and, BitVec.getElem_not, BitVec.getElem_xor]
    cases a[i] <;> cases b[i] <;> rfl
  exact UInt8.toBitVec_inj.mp (hagree a.toBitVec b.toBitVec)

end SwarBlock.BytePattern

namespace Csv

open PatternScan SwarBlock BytePattern

namespace CSVStateMachineOptions

variable {o : CSVStateMachineOptions}

/-- What a byte differs from if no stop pattern matches it. -/
theorem unmatched_ne {b : UInt8} (h : CSVByteSkipper.Unmatched o.stopPatterns b) :
    b ≠ o.delimiterFirstByte ∧ (o.quote ≠ 0 → b ≠ o.quote) ∧ b ≠ lineFeed ∧
      b ≠ Csv.carriageReturn ∧ (o.comment ≠ 0 → b ≠ o.comment) ∧
      (o.escape ≠ 0 → o.escape ≠ o.quote → b ≠ o.escape) := by
  refine ⟨?_, ?_, ?_, ?_, ?_, ?_⟩
  · rintro rfl
    exact h _ _ (by simp [stopPatterns, BytePattern.byte]) (matches_byte _)
  · rintro hquote rfl
    exact h _ _ (by simp [stopPatterns, BytePattern.byte, hquote]) (matches_byte _)
  · rintro rfl
    exact h _ _ (by simp [stopPatterns, BytePattern.either])
      (matches_either_left lineFeed Csv.carriageReturn)
  · rintro rfl
    exact h _ _ (by simp [stopPatterns, BytePattern.either])
      (matches_either_right lineFeed Csv.carriageReturn)
  · rintro hcomment rfl
    exact h _ _ (by simp [stopPatterns, BytePattern.byte, hcomment]) (matches_byte _)
  · rintro hescape hne rfl
    exact h _ _ (by simp [stopPatterns, BytePattern.byte, hescape, hne]) (matches_byte _)

variable (o)

/-- The table of the bytes that are skipped in a state. -/
def skipTable : CSVState → Option (UInt8 → Bool)
  | .standard => some o.skipStandard
  | .quoted => some o.skipQuoted
  | .comment => some skipComment
  | _ => none

variable {o}

def ofQuotes : CSVState → Bool
  | .quoted | .unquoted | .escape | .quotedNewLine | .maybeQuoted => true
  | _ => false

/-- The states of quotes occur only where there is a quote. -/
def Quotable (o : CSVStateMachineOptions) (state : CSVState) : Prop :=
  ofQuotes state = true → o.quote ≠ 0

variable {state : CSVState}

theorem FieldStart.quotable (h : FieldStart state) : o.Quotable state := by
  rcases h with rfl | rfl | rfl <;> intro hquotes <;> cases hquotes

theorem ofQuotes_delimiterState : ofQuotes o.delimiterState = false := by
  unfold delimiterState
  split <;> rfl

theorem ofQuotes_returnState : ofQuotes o.returnState = false := by
  unfold returnState
  split <;> rfl

theorem ofQuotes_standardTransition (state : CSVState) (b : UInt8) :
    ofQuotes (o.standardTransition state b) = false := by
  unfold standardTransition
  cases o.newLine
  all_goals
    simp only [apply_ite ofQuotes, ofQuotes_delimiterState]
    simp only [ofQuotes, ite_self]

theorem Quotable.transition (h : o.Quotable state) (b : UInt8) :
    o.Quotable (o.transition state b) := by
  intro hnext hzero
  have hquote : o.isQuote b = false := by simp [isQuote, hzero]
  have hstate : ofQuotes state = false := by
    rw [← Bool.not_eq_true]
    exact fun hquotes => h hquotes hzero
  revert hnext
  rw [imp_false, Bool.not_eq_true]
  cases state <;> cases hstate
  all_goals
    simp only [CSVStateMachineOptions.transition, delimiterTransition,
      delimiterFirstByteTransition, delimiterSecondByteTransition, delimiterThirdByteTransition,
      delimiterBytesTransition, recordSeparatorTransition, carriageReturnTransition,
      notSetTransition, emptySpaceTransition, commentTransition, unquotedEscapeTransition,
      escapedReturnTransition, hquote, Bool.false_eq_true, if_false, apply_ite ofQuotes,
      ofQuotes_standardTransition, ofQuotes_delimiterState, ofQuotes_returnState]
    try simp only [ofQuotes, ite_self]

/-- A byte that matches no stop pattern does not change a state that skips bytes. -/
theorem transition_unmatched {skips : UInt8 → Bool} (hskips : o.skipTable state = some skips)
    (hq : o.Quotable state) {b : UInt8} (hb : CSVByteSkipper.Unmatched o.stopPatterns b) :
    o.transition state b = state := by
  obtain ⟨hdelimiter, hquote, hline, hreturn, hcomment, hescape⟩ := unmatched_ne hb
  cases state <;> cases hskips
  case standard =>
      have hnone : o.isComment b = false := by
        by_cases hzero : o.comment = 0
        · simp [isComment, hzero]
        · simp [isComment, hcomment hzero]
      have hplain : o.isUnquotedEscape b = false := by
        by_cases hzero : o.escape = 0 ∨ o.escape = o.quote
        · rcases hzero with hzero | hzero <;>
            simp [isUnquotedEscape, enableUnquotedEscape, hzero]
        · rw [not_or] at hzero
          simp [isUnquotedEscape, hescape hzero.1 hzero.2]
      simp [transition, standardTransition, hnone, hplain, hline, hreturn, hdelimiter]
  case quoted =>
      have hne := hquote (hq rfl)
      have hplain : o.isEscape b = false := by
        by_cases hzero : o.escape = 0 ∨ o.escape = o.quote
        · rcases hzero with hzero | hzero <;> simp [isEscape, hzero]
        · rw [not_or] at hzero
          simp [isEscape, hescape hzero.1 hzero.2]
      simp [transition, quotedTransition, hplain, hline, hreturn, hne]
  case comment => simp [transition, commentTransition, hline, hreturn]

theorem skipTable_skips {skips : UInt8 → Bool} (h : o.skipTable state = some skips) :
    skips = o.skips state := by
  cases state <;> cases h <;> rfl

end CSVStateMachineOptions

/-! ## The loop -/

/-- `to_pos`: the end of the buffer or of what the scanner reads of it. -/
def toPos (buffer : Bytes) (boundary : Option Nat) : Nat :=
  match boundary with
  | none => buffer.length
  | some endPos => if endPos > buffer.length then buffer.length else endPos

theorem toPos_le (buffer : Bytes) (boundary : Option Nat) :
    toPos buffer boundary ≤ buffer.length := by
  unfold toPos
  split
  · exact le_refl _
  · split <;> omega

namespace CSVByteSkipper

variable (o : CSVStateMachineOptions)

/-- Passes the bytes after a byte that led to `state`. -/
def pass (s : CSVByteSkipper) (state : CSVState) (toPos pos : Nat) : CSVByteSkipper × Nat :=
  match o.skipTable state with
  | none => (s, pos)
  | some skips => s.skipToStop skips toPos pos

theorem le_pass (s : CSVByteSkipper) (state : CSVState) (toPos pos : Nat) :
    pos ≤ (s.pass o state toPos pos).2 := by
  unfold pass
  split
  · exact le_refl _
  · exact le_skipToStop s _ toPos pos

/-- The states that a scanner visits, with the number of bytes that it reads in each of them. -/
def processLoop (s : CSVByteSkipper) (state : CSVState) (toPos pos : Nat) : List (CSVState × Nat) :=
  if pos < toPos then
    let next := o.transition state (s.byteAt pos)
    if next = .invalid then [(next, 1)]
    else
      let passed := s.pass o next toPos (pos + 1)
      (next, passed.2 - pos) :: processLoop passed.1 next toPos passed.2
  else []
termination_by toPos - pos
decreasing_by
  have hle := le_pass o s (o.transition state (s.byteAt pos)) toPos (pos + 1)
  omega

/-- `BaseScanner::Process`, as far as it decides which bytes are read in which state. -/
def process (s : CSVByteSkipper) (state : CSVState) (buffer : Bytes) (boundary : Option Nat)
    (pos : Nat) : List (CSVState × Nat) :=
  (s.setBuffer buffer).processLoop o state (toPos buffer boundary) pos

def visited (visits : List (CSVState × Nat)) : List CSVState :=
  visits.flatMap fun visit => List.replicate visit.2 visit.1

end CSVByteSkipper

namespace CSVStateMachineOptions

variable (o : CSVStateMachineOptions)

def steps : CSVState → Bytes → List CSVState
  | _, [] => []
  | state, b :: bytes =>
      if o.transition state b = .invalid then [.invalid]
      else o.transition state b :: steps (o.transition state b) bytes

variable {o}

theorem steps_append {state : CSVState} (hstate : state ≠ .invalid) {skipped : Bytes}
    (hskipped : ∀ b ∈ skipped, o.transition state b = state) (rest : Bytes) :
    o.steps state (skipped ++ rest) =
      List.replicate skipped.length state ++ o.steps state rest := by
  induction skipped with
  | nil => rfl
  | cons b skipped ih =>
      obtain ⟨hb, hskipped⟩ := List.forall_mem_cons.mp hskipped
      rw [List.cons_append, steps, hb, if_neg hstate, ih hskipped, List.length_cons,
        List.replicate_succ, List.cons_append]

end CSVStateMachineOptions

namespace CSVByteSkipper

open CSVStateMachineOptions

variable {o : CSVStateMachineOptions}

variable {s : CSVByteSkipper}

theorem pass_spec (h : s.Valid) (hs : s.stopPatterns = o.stopPatterns) {state : CSVState}
    (hq : o.Quotable state) {toPos pos : Nat} (hpos : pos ≤ toPos) :
    (s.pass o state toPos pos).1.Valid ∧ Same s (s.pass o state toPos pos).1 ∧
      (s.pass o state toPos pos).2 ≤ toPos ∧
      ∀ i, pos ≤ i → i < (s.pass o state toPos pos).2 →
        o.transition state (s.byteAt i) = state := by
  unfold pass
  split
  · exact ⟨h, .refl s, hpos, fun i hi hi' => absurd hi (not_le.mpr hi')⟩
  · rename_i skips htable
    obtain ⟨hvalid, hsame, hle, hpassed⟩ := skipToStop_spec h skips hpos
    refine ⟨hvalid, hsame, hle, fun i hi hi' => ?_⟩
    rcases hpassed i hi hi' with hunmatched | hskips
    · exact transition_unmatched htable hq (hs ▸ hunmatched)
    · rw [skipTable_skips htable] at hskips
      exact transition_skips o hskips

def slice (s : CSVByteSkipper) (pos toPos : Nat) : Bytes := (s.buffer.take toPos).drop pos

theorem slice_eq_cons {pos toPos : Nat} (hpos : pos < toPos) (hlen : toPos ≤ s.buffer.length) :
    s.slice pos toPos = s.byteAt pos :: s.slice (pos + 1) toPos := by
  have hlt : pos < (s.buffer.take toPos).length := by
    rw [List.length_take]
    omega
  rw [slice, slice, List.drop_eq_getElem_cons hlt, List.getElem_take, byteAt,
    List.getD_eq_getElem _ _ (by omega)]

/-- A slice from one position to another, and the rest. -/
theorem slice_split (s : CSVByteSkipper) {pos mid toPos : Nat} (hpos : pos ≤ mid)
    (hmid : mid ≤ toPos) (hlen : toPos ≤ s.buffer.length) :
    ∃ skipped, s.slice pos toPos = skipped ++ s.slice mid toPos ∧ skipped.length = mid - pos ∧
      ∀ b ∈ skipped, ∃ i, pos ≤ i ∧ i < mid ∧ b = s.byteAt i := by
  refine ⟨(s.slice pos toPos).take (mid - pos), ?_, ?_, fun b hb => ?_⟩
  · have hdrop : (s.slice pos toPos).drop (mid - pos) = s.slice mid toPos := by
      rw [slice, slice, List.drop_drop]
      congr 1
      omega
    rw [← hdrop, List.take_append_drop]
  · rw [slice, List.length_take, List.length_drop, List.length_take]
    omega
  · obtain ⟨i, hi, rfl⟩ := List.mem_iff_getElem.mp hb
    have hlt := hi
    rw [List.length_take] at hlt
    refine ⟨pos + i, Nat.le_add_right _ _, by omega, ?_⟩
    rw [List.getElem_take]
    simp only [slice, List.getElem_drop, List.getElem_take]
    rw [byteAt, List.getD_eq_getElem _ _ (by omega)]

theorem visited_processLoop (h : s.Valid) (hs : s.stopPatterns = o.stopPatterns) {state : CSVState}
    (hq : o.Quotable state) {toPos pos : Nat} (hlen : toPos ≤ s.buffer.length) :
    visited (s.processLoop o state toPos pos) = o.steps state (s.slice pos toPos) := by
  fun_induction processLoop o s state toPos pos with
  | case1 s state pos hpos next hinvalid =>
      rw [slice_eq_cons hpos hlen, steps, if_pos hinvalid]
      show visited [(next, 1)] = _
      rw [hinvalid]
      rfl
  | case2 s state pos hpos next hvalid passed ih =>
      have hnext := hq.transition (s.byteAt pos)
      obtain ⟨hvalid', hsame, hle, hkeeps⟩ := pass_spec h hs hnext (Nat.succ_le_of_lt hpos)
      have hge : pos + 1 ≤ passed.2 := le_pass o s next toPos (pos + 1)
      have hslice : ∀ i, passed.1.slice i toPos = s.slice i toPos := by
        intro i
        rw [slice, slice, hsame.buffer]
      obtain ⟨skipped, hsplit, hlength, hmem⟩ := slice_split s hge hle hlen
      have hskipped : ∀ b ∈ skipped, o.transition next b = next := by
        intro b hb
        obtain ⟨i, hi, hi', rfl⟩ := hmem b hb
        exact hkeeps i hi hi'
      have hrest := ih hvalid' (hsame.stopPatterns.trans hs) hnext (hsame.buffer ▸ hlen)
      rw [slice_eq_cons hpos hlen, steps, if_neg hvalid, hsplit, steps_append hvalid hskipped,
        hlength]
      show List.replicate (passed.2 - pos) next ++ visited _ = _
      have hcount : passed.2 - pos = passed.2 - (pos + 1) + 1 := by omega
      rw [hrest, hslice, hcount, List.replicate_succ, List.cons_append]
  | case3 s state pos hpos =>
      have hnil : s.slice pos toPos = [] := by
        rw [slice, List.drop_eq_nil_iff, List.length_take]
        omega
      rw [hnil]
      rfl

/-- A scan that skips bytes visits the states of a scan that does not. -/
theorem visited_process (s : CSVByteSkipper) (hs : s.stopPatterns = o.stopPatterns)
    {state : CSVState} (hq : o.Quotable state) (buffer : Bytes) (boundary : Option Nat)
    (pos : Nat) :
    visited (s.process o state buffer boundary pos) =
      o.steps state ((buffer.take (toPos buffer boundary)).drop pos) :=
  visited_processLoop (s.setBuffer_valid buffer) hs hq (toPos_le buffer boundary)

end CSVByteSkipper

/-! ## Runs without special bytes -/

namespace CSVStateMachineOptions

variable {o : CSVStateMachineOptions}

theorem transition_run (hd : o.MultiByteDelimiter) {state : CSVState}
    (hs : ∃ k, Stands k state) {b : UInt8} (hb : o.isSpecial b = false) :
    ∃ k, Stands k (o.transition state b) := by
  have hfound : ∃ k, Stands k .delimiter := ⟨0, .inl (.inr (.inr rfl))⟩
  have hstandard : ∃ k, Stands k .standard := ⟨0, .inr rfl⟩
  have hfirst : ∃ k, Stands k .delimiterFirstByte := ⟨1, rfl⟩
  have hsecond : ∃ k, Stands k .delimiterSecondByte := ⟨2, rfl⟩
  have hthird : ∃ k, Stands k .delimiterThirdByte := ⟨3, rfl⟩
  obtain ⟨k, hk⟩ := hs
  match k, hk with
  | 0, hk =>
      rw [transition_stands_zero hd hk hb]
      split_ifs <;> assumption
  | 1, hk =>
      obtain rfl : state = .delimiterFirstByte := hk
      rw [transition, delimiterFirstByteTransition, delimiterBytesTransition_eq hd hb]
      split_ifs <;> assumption
  | 2, hk =>
      obtain rfl : state = .delimiterSecondByte := hk
      rw [transition, delimiterSecondByteTransition, delimiterBytesTransition_eq hd hb]
      split_ifs <;> assumption
  | 3, hk =>
      obtain rfl : state = .delimiterThirdByte := hk
      rw [transition, delimiterThirdByteTransition, delimiterBytesTransition_eq hd hb]
      split_ifs <;> assumption
  | _ + 4, hk => exact absurd hk id

theorem Stands.valid {k : Nat} {state : CSVState} (h : Stands k state) : state ≠ .invalid := by
  rintro rfl
  match k, h with
  | 0, h => rcases h with (h | h | h) | h <;> cases h
  | 1, h | 2, h | 3, h => cases h
  | _ + 4, h => exact h

theorem steps_eq_run (hd : o.MultiByteDelimiter) {state : CSVState} (hs : ∃ k, Stands k state)
    {text : Bytes} (htext : ∀ b ∈ text, o.isSpecial b = false) :
    o.steps state text = run o.transition state text := by
  induction text generalizing state with
  | nil => rfl
  | cons b text ih =>
      obtain ⟨hb, htext⟩ := List.forall_mem_cons.mp htext
      obtain ⟨k, hk⟩ := transition_run hd hs hb
      rw [steps, if_neg hk.valid, run, ih ⟨k, hk⟩ htext]

variable (o)

/-- The delimiters of a run are entered at the ends of their occurrences. -/
def FindsDelimiters (start : CSVState) (text : Bytes) : Prop :=
  (run o.transition start text).map (fun state => decide (state = .delimiter)) =
    marks o.delimiter [] text

instance (start : CSVState) (text : Bytes) : Decidable (o.FindsDelimiters start text) :=
  inferInstanceAs (Decidable (_ = _))

variable {o}

/-- A scan of a run skips bytes without effect on the states, and finds the delimiters unless one
that repeats its first byte once follows an odd number of these. -/
theorem multiByteDelimiter_iff (hd : o.MultiByteDelimiter) {start : CSVState}
    (hstart : FieldStart start) (s : CSVByteSkipper) (hs : s.stopPatterns = o.stopPatterns)
    (buffer : Bytes) (boundary : Option Nat) (pos : Nat)
    (htext : ∀ b ∈ (buffer.take (toPos buffer boundary)).drop pos, o.isSpecial b = false) :
    (o.FindsDelimiters start ((buffer.take (toPos buffer boundary)).drop pos) ∧
      CSVByteSkipper.visited (s.process o start buffer boundary pos) =
        run o.transition start ((buffer.take (toPos buffer boundary)).drop pos)) ↔
      (o.RepeatsFirstByte →
        ∀ value ∈ values o.delimiter [] ((buffer.take (toPos buffer boundary)).drop pos),
          Even (trailing o.delimiterFirstByte value)) := by
  have hvisited : CSVByteSkipper.visited (s.process o start buffer boundary pos) =
      run o.transition start ((buffer.take (toPos buffer boundary)).drop pos) := by
    rw [CSVByteSkipper.visited_process s hs hstart.quotable]
    exact steps_eq_run hd ⟨0, .inl hstart⟩ htext
  rw [and_iff_left hvisited]
  exact run_delimiter_iff hd hstart htext

/-- A delimiter `aabb` and the default quote. -/
def repeatedFirstByte : CSVStateMachineOptions where
  delimiter := [97, 97, 98, 98]
  quote := 34
  escape := 34
  comment := 0
  newLine := .singleN
  newLineSetByUser := false
  strictMode := true
  strictModeSetByUser := false

theorem multiByteDelimiter_iff_found :
    repeatedFirstByte.FindsDelimiters .notSet [120, 97, 97, 98, 98, 121] ∧
      CSVByteSkipper.visited
          ((CSVByteSkipper.mk repeatedFirstByte.stopPatterns [] 0 0 0).process repeatedFirstByte
            .notSet [120, 97, 97, 98, 98, 121] none 0) =
        run repeatedFirstByte.transition .notSet [120, 97, 97, 98, 98, 121] :=
  (multiByteDelimiter_iff (o := repeatedFirstByte) ⟨by decide, by decide +kernel⟩ (.inl rfl)
    ⟨_, [], 0, 0, 0⟩ rfl [120, 97, 97, 98, 98, 121] none 0 (by decide +kernel)).mpr fun _ =>
      by decide +kernel

/-- The delimiter after one more first byte is missed. -/
theorem repeatedFirstByte_missed :
    repeatedFirstByte.MultiByteDelimiter ∧ FieldStart .notSet ∧
      (∀ b ∈ ([97, 97, 97, 98, 98] : Bytes), repeatedFirstByte.isSpecial b = false) ∧
      ¬ repeatedFirstByte.FindsDelimiters .notSet [97, 97, 97, 98, 98] :=
  ⟨⟨by decide, by decide +kernel⟩, .inl rfl, by decide +kernel, by decide +kernel⟩

end CSVStateMachineOptions

end Csv
end MiniDuck
