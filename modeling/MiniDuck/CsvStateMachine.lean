import Mathlib

/-!
# The state machine of the CSV reader

A table gives the next state for every state and byte. The source fills
it by assignments, of which the later ones win; here every state has its
row of the table, the winning assignments first.

The writer produces few of the bytes that the table distinguishes. Under a
`Dialect` the bytes that end a field differ from each other and from the
quote, and `Plain` bytes leave a field as it is: `transition_plain`,
`transition_quoted` and the lemmas after them are all that the scan of a
written text asks of the table.
-/

namespace MiniDuck
namespace Csv

abbrev Bytes : Type := List UInt8

def lineFeed : UInt8 := 10

def carriageReturn : UInt8 := 13

def space : UInt8 := 32

inductive NewLineIdentifier
  | singleN
  | carryOn
  | notSet
  | singleR
  deriving Repr, DecidableEq

/-- `CSVStateMachineOptions`. A character that is not set is zero. -/
structure CSVStateMachineOptions where
  delimiter : Bytes
  quote : UInt8
  escape : UInt8
  comment : UInt8
  newLine : NewLineIdentifier
  newLineSetByUser : Bool
  strictMode : Bool
  strictModeSetByUser : Bool
  deriving Repr, DecidableEq

inductive CSVState
  | standard
  | delimiter
  | delimiterFirstByte
  | delimiterSecondByte
  | delimiterThirdByte
  | recordSeparator
  | carriageReturn
  | quoted
  | unquoted
  | escape
  | invalid
  | notSet
  | quotedNewLine
  | emptySpace
  | comment
  | standardNewline
  | unquotedEscape
  | escapedReturn
  | maybeQuoted
  deriving Repr, DecidableEq

namespace CSVStateMachineOptions

variable (o : CSVStateMachineOptions)

def delimiterFirstByte : UInt8 := o.delimiter.headD 0

def multiByteDelimiter : Bool := o.delimiter.length > 1

def enableUnquotedEscape : Bool := !o.strictMode && o.quote ≠ o.escape && o.escape ≠ 0

/-- The byte `i` of the delimiter. -/
def delimiterByte (i : Nat) : UInt8 := o.delimiter.getD i 0

def delimiterState : CSVState :=
  if o.multiByteDelimiter then .delimiterFirstByte else .delimiter

/-- The state after a carriage return where the table does not tell strict mode apart. -/
def returnState : CSVState :=
  if o.newLine = .carryOn then .carriageReturn else .recordSeparator

def isComment (b : UInt8) : Bool := o.comment ≠ 0 && b = o.comment

def isUnquotedEscape (b : UInt8) : Bool := o.enableUnquotedEscape && b = o.escape

def isQuote (b : UInt8) : Bool := o.quote ≠ 0 && b = o.quote

def isSpace (b : UInt8) : Bool := o.delimiterFirstByte ≠ space && b = space

def isEscape (b : UInt8) : Bool := o.quote ≠ o.escape && o.escape ≠ 0 && b = o.escape

def standardTransition (state : CSVState) (b : UInt8) : CSVState :=
  if o.isUnquotedEscape b then .unquotedEscape
  else if o.isComment b then .comment
  else if b = lineFeed then
    match o.newLine with
    | .carryOn =>
        if state = .standardNewline then .standard
        else if !o.strictMode then .recordSeparator
        else .invalid
    | .singleN | .notSet => .recordSeparator
    | .singleR => if !o.strictMode then .recordSeparator else .invalid
  else if b = Csv.carriageReturn then
    match o.newLine with
    | .carryOn => .carriageReturn
    | .singleN => if !o.strictMode then .recordSeparator else .invalid
    | .singleR | .notSet => .recordSeparator
  else if b = o.delimiterFirstByte then o.delimiterState
  else .standard

def delimiterTransition (b : UInt8) : CSVState :=
  if o.isUnquotedEscape b then .unquotedEscape
  else if o.isComment b then .comment
  else if b = Csv.carriageReturn then o.returnState
  else if b = lineFeed then .recordSeparator
  else if b = o.delimiterFirstByte then o.delimiterState
  else if o.isSpace b then .emptySpace
  else if o.isQuote b then .quoted
  else .standard

def delimiterBytesTransition (b : UInt8) : CSVState :=
  if b = Csv.carriageReturn then o.returnState
  else if b = lineFeed then .recordSeparator
  else if b = o.delimiterFirstByte then o.delimiterState
  else .standard

def delimiterFirstByteTransition (b : UInt8) : CSVState :=
  if o.delimiter.length = 2 ∧ b = o.delimiterByte 1 then .delimiter
  else if (o.delimiter.length = 3 ∨ o.delimiter.length = 4) ∧ b = o.delimiterByte 1 then
    .delimiterSecondByte
  else o.delimiterBytesTransition b

def delimiterSecondByteTransition (b : UInt8) : CSVState :=
  if o.delimiter.length = 3 ∧ b = o.delimiterByte 2 then .delimiter
  else if o.delimiter.length = 3 ∧ o.delimiterFirstByte = o.delimiterByte 1 ∧
      b = o.delimiterByte 1 then .delimiterSecondByte
  else if o.delimiter.length = 4 ∧ b = o.delimiterByte 2 then .delimiterThirdByte
  else o.delimiterBytesTransition b

def delimiterThirdByteTransition (b : UInt8) : CSVState :=
  if o.delimiter.length = 4 ∧ b = o.delimiterByte 3 then .delimiter
  else if o.delimiter.length = 4 ∧ o.delimiterFirstByte = o.delimiterByte 1 ∧
      o.delimiterByte 1 = o.delimiterByte 2 ∧ b = o.delimiterByte 1 then .delimiterThirdByte
  else if o.delimiter.length = 4 ∧ o.delimiterFirstByte = o.delimiterByte 2 ∧
      b = o.delimiterByte 1 then .delimiterSecondByte
  else o.delimiterBytesTransition b

def recordSeparatorTransition (b : UInt8) : CSVState :=
  if o.strictMode ∧ (o.newLine = .carryOn ∨ o.newLine = .singleR) ∧ b = lineFeed then .invalid
  else if o.strictMode ∧ o.newLine = .singleN ∧ b = Csv.carriageReturn then .invalid
  else if o.isUnquotedEscape b then .unquotedEscape
  else if o.isComment b then .comment
  else if o.isSpace b then .emptySpace
  else if o.isQuote b then .quoted
  else if b = Csv.carriageReturn then o.returnState
  else if b = lineFeed then .recordSeparator
  else if b = o.delimiterFirstByte then o.delimiterState
  else .standard

def carriageReturnTransition (b : UInt8) : CSVState :=
  if o.isUnquotedEscape b then .unquotedEscape
  else if o.isComment b then .comment
  else if o.isSpace b then .emptySpace
  else if o.isQuote b then .quoted
  else if b = Csv.carriageReturn then if o.strictMode then .invalid else .carriageReturn
  else if b = lineFeed then .recordSeparator
  else if o.strictMode then .invalid
  else .standard

def quotedTransition (b : UInt8) : CSVState :=
  if o.isEscape b then .escape
  else if b = lineFeed ∨ b = Csv.carriageReturn then .quotedNewLine
  else if b = o.quote then .unquoted
  else .quoted

def unquotedTransition (b : UInt8) : CSVState :=
  if o.delimiterFirstByte ≠ space ∧ o.quote ≠ space ∧ o.escape ≠ space ∧ o.comment ≠ space ∧
      b = space then .unquoted
  else if o.isComment b then .comment
  else if !o.strictMode ∧ b = o.quote then if o.escape = 0 then .maybeQuoted else .quoted
  else if o.strictMode ∧ (o.newLine = .carryOn ∨ o.newLine = .singleR) ∧ b = lineFeed then .invalid
  else if o.strictMode ∧ o.newLine = .singleN ∧ b = Csv.carriageReturn then .invalid
  else if o.quote = o.escape ∧ b = o.quote then .quoted
  else if b = o.delimiterFirstByte then o.delimiterState
  else if b = Csv.carriageReturn then o.returnState
  else if b = lineFeed then .recordSeparator
  else if o.strictMode then .invalid
  else .unquoted

def notSetTransition (b : UInt8) : CSVState :=
  if o.isUnquotedEscape b then .unquotedEscape
  else if o.isComment b then .comment
  else if o.isSpace b then .emptySpace
  else if o.isQuote b then .quoted
  else if b = Csv.carriageReturn then o.returnState
  else if b = lineFeed then .recordSeparator
  else if b = o.delimiterFirstByte then o.delimiterState
  else .standard

def quotedNewLineTransition (b : UInt8) : CSVState :=
  if o.isEscape b then .escape
  else if b = o.quote then .unquoted
  else .quoted

def emptySpaceTransition (b : UInt8) : CSVState :=
  if o.isUnquotedEscape b then .unquotedEscape
  else if o.isComment b then .comment
  else if o.isQuote b then .quoted
  else if b = Csv.carriageReturn then o.returnState
  else if b = lineFeed then .recordSeparator
  else if b = o.delimiterFirstByte then o.delimiterState
  else .standard

def commentTransition (b : UInt8) : CSVState :=
  if b = Csv.carriageReturn then o.returnState
  else if b = lineFeed then .recordSeparator
  else .comment

def unquotedEscapeTransition (b : UInt8) : CSVState :=
  if o.enableUnquotedEscape ∧ o.newLine = .carryOn ∧ b = Csv.carriageReturn then .escapedReturn
  else .standard

def escapedReturnTransition (b : UInt8) : CSVState :=
  if o.isUnquotedEscape b then .unquotedEscape
  else if o.enableUnquotedEscape && o.isComment b then .comment
  else if o.enableUnquotedEscape ∧ b = Csv.carriageReturn then o.returnState
  else if o.enableUnquotedEscape ∧ b = o.delimiterFirstByte then .delimiter
  else .standard

def maybeQuotedTransition (b : UInt8) : CSVState :=
  if b = o.delimiterFirstByte then o.delimiterState
  else if b = Csv.carriageReturn then o.returnState
  else if b = lineFeed then .recordSeparator
  else if b = o.quote then .maybeQuoted
  else .quoted

/-- `CSVStateMachineCache::Insert`. -/
def transition (state : CSVState) (b : UInt8) : CSVState :=
  match state with
  | .standard | .invalid | .standardNewline => o.standardTransition state b
  | .delimiter => o.delimiterTransition b
  | .delimiterFirstByte => o.delimiterFirstByteTransition b
  | .delimiterSecondByte => o.delimiterSecondByteTransition b
  | .delimiterThirdByte => o.delimiterThirdByteTransition b
  | .recordSeparator => o.recordSeparatorTransition b
  | .carriageReturn => o.carriageReturnTransition b
  | .quoted => o.quotedTransition b
  | .unquoted => o.unquotedTransition b
  | .notSet => o.notSetTransition b
  | .quotedNewLine => o.quotedNewLineTransition b
  | .emptySpace => o.emptySpaceTransition b
  | .comment => o.commentTransition b
  | .unquotedEscape => o.unquotedEscapeTransition b
  | .escapedReturn => o.escapedReturnTransition b
  | .maybeQuoted => o.maybeQuotedTransition b
  | .escape => .quoted

/-! ## Bytes that can be skipped -/

def skipStandard (b : UInt8) : Bool :=
  !(b = o.delimiterFirstByte || b = lineFeed || b = Csv.carriageReturn || b = o.comment ||
    o.isUnquotedEscape b)

def skipQuoted (b : UInt8) : Bool :=
  !(b = o.quote || b = o.escape || b = lineFeed || b = Csv.carriageReturn)

def skipComment (b : UInt8) : Bool := !(b = Csv.carriageReturn || b = lineFeed)

def skips : CSVState → UInt8 → Bool
  | .standard => o.skipStandard
  | .quoted => o.skipQuoted
  | .comment => skipComment
  | _ => fun _ => false

/-- A byte that is skipped does not change the state. -/
theorem transition_skips {state : CSVState} {b : UInt8} (h : o.skips state b = true) :
    o.transition state b = state := by
  cases state <;> simp [skips] at h
  case standard =>
      simp only [skipStandard, Bool.not_eq_true', Bool.or_eq_false_iff,
        decide_eq_false_iff_not] at h
      obtain ⟨⟨⟨⟨hd, hn⟩, hr⟩, hc⟩, he⟩ := h
      simp [transition, standardTransition, isComment, hd, hn, hr, hc, he]
  case quoted =>
      simp only [skipQuoted, Bool.not_eq_true', Bool.or_eq_false_iff, decide_eq_false_iff_not] at h
      obtain ⟨⟨⟨hq, he⟩, hn⟩, hr⟩ := h
      simp [transition, quotedTransition, isEscape, hq, he, hn, hr]
  case comment =>
      simp only [skipComment, Bool.not_eq_true', Bool.or_eq_false_iff, decide_eq_false_iff_not] at h
      simp [transition, commentTransition, h.1, h.2]

end CSVStateMachineOptions

namespace CSVStateMachineOptions

/-! ## Dialects -/

variable (o : CSVStateMachineOptions)

def newLineBytes : Bytes :=
  if o.newLine = .carryOn then [Csv.carriageReturn, lineFeed] else [lineFeed]

def controlBytes : Bytes :=
  [o.quote] ++ ((if o.escape = o.quote then [] else [o.escape]) ++
    ((if o.comment = 0 then [] else [o.comment]) ++ o.newLineBytes))

def specialBytes : Bytes := o.delimiter ++ o.controlBytes

/-- A strict dialect with a quote and an escape character, of which the characters differ. The
carriage return ends records also where it is not part of the newline. -/
structure Dialect : Prop where
  strict : o.strictMode = true
  delimiter : 1 ≤ o.delimiter.length ∧ o.delimiter.length ≤ 4
  quote : o.quote ≠ 0
  escape : o.escape ≠ 0
  newLine : o.newLine = .singleN ∨ o.newLine = .carryOn
  distinct : o.controlBytes.Nodup
  disjoint : ∀ b ∈ o.delimiter, b ∉ o.controlBytes
  noSpace : space ∉ o.specialBytes
  noReturn : Csv.carriageReturn ≠ o.delimiterFirstByte ∧ Csv.carriageReturn ≠ o.quote

/-- A byte that does not end a field and is no quote. -/
structure Plain (b : UInt8) : Prop where
  delimiter : b ≠ o.delimiterFirstByte
  lineFeed : b ≠ Csv.lineFeed
  carriageReturn : b ≠ Csv.carriageReturn
  quote : b ≠ o.quote
  comment : o.isComment b = false

def FieldStart (state : CSVState) : Prop :=
  state = .notSet ∨ state = .recordSeparator ∨ state = .delimiter

def Raw (state : CSVState) : Prop := FieldStart state ∨ state = .standard ∨ state = .emptySpace

def InQuotes (state : CSVState) : Prop := state = .quoted ∨ state = .quotedNewLine

variable {o}

namespace Dialect

theorem not_escape (h : Dialect o) (b : UInt8) : o.isUnquotedEscape b = false := by
  simp [isUnquotedEscape, enableUnquotedEscape, h.strict]

theorem delimiterFirstByte_mem (h : Dialect o) : o.delimiterFirstByte ∈ o.delimiter := by
  unfold delimiterFirstByte
  cases hd : o.delimiter with
  | nil =>
      have := h.delimiter.1
      simp [hd] at this
  | cons d rest => exact List.mem_cons_self ..

theorem lineFeed_mem (o : CSVStateMachineOptions) : lineFeed ∈ o.newLineBytes := by
  unfold newLineBytes
  split <;> simp

theorem comment_mem {b : UInt8} (hc : o.isComment b = true) :
    b ∈ (if o.comment = 0 then [] else [o.comment] : Bytes) := by
  simp only [isComment, Bool.and_eq_true, decide_eq_true_eq] at hc
  simp [hc.1, hc.2]

/-- The first byte of the delimiter is no other character. -/
theorem delimiter_ne (h : Dialect o) : o.delimiterFirstByte ≠ o.quote ∧
    o.delimiterFirstByte ≠ lineFeed ∧ o.delimiterFirstByte ≠ Csv.carriageReturn ∧
    o.isComment o.delimiterFirstByte = false ∧ o.delimiterFirstByte ≠ space := by
  have hother := h.disjoint _ h.delimiterFirstByte_mem
  refine ⟨?_, ?_, h.noReturn.1.symm, ?_, ?_⟩
  · intro heq
    exact hother (heq ▸ List.mem_append_left _ (List.mem_singleton_self _))
  · intro heq
    refine hother (heq ▸ List.mem_append_right _ (List.mem_append_right _ ?_))
    exact List.mem_append_right _ (lineFeed_mem o)
  · by_contra hc
    refine hother (List.mem_append_right _ (List.mem_append_right _ ?_))
    exact List.mem_append_left _ (comment_mem (by simpa using hc))
  · intro heq
    exact h.noSpace (List.mem_append_left _ (heq ▸ h.delimiterFirstByte_mem))

theorem quote_ne (h : Dialect o) : o.quote ≠ lineFeed ∧ o.quote ≠ Csv.carriageReturn ∧
    o.isComment o.quote = false ∧ o.quote ≠ space := by
  have hother := (List.nodup_append.mp h.distinct).2.2 o.quote (List.mem_singleton_self _)
  refine ⟨?_, h.noReturn.2.symm, ?_, ?_⟩
  · exact hother _ (List.mem_append_right _ (List.mem_append_right _ (lineFeed_mem o)))
  · by_contra hc
    have hmem := comment_mem (o := o) (b := o.quote) (by simpa using hc)
    exact hother _ (List.mem_append_right _ (List.mem_append_left _ hmem)) rfl
  · intro hspace
    exact h.noSpace (List.mem_append_right _
      (hspace ▸ List.mem_append_left _ (List.mem_singleton_self _)))

theorem newLine_not_comment (h : Dialect o) {b : UInt8} (hb : b ∈ o.newLineBytes) :
    o.isComment b = false := by
  have hcomment := (List.nodup_append.mp (List.nodup_append.mp h.distinct).2.1).2.1
  by_contra hc
  exact (List.nodup_append.mp hcomment).2.2 b (comment_mem (by simpa using hc)) b hb rfl

/-! ## The transitions of written text -/

variable {state : CSVState}

theorem transition_plain (h : Dialect o) (hs : Raw state) {b : UInt8} (hb : o.Plain b) :
    o.transition state b = .standard ∨ o.transition state b = .emptySpace := by
  have hquote : o.isQuote b = false := by simp [isQuote, hb.quote]
  rcases hs with (rfl | rfl | rfl) | rfl | rfl
  · cases hspace : o.isSpace b <;>
      simp [transition, notSetTransition, h.not_escape, hb.comment, hquote, hb.lineFeed,
        hb.carriageReturn, hb.delimiter, hspace]
  · cases hspace : o.isSpace b <;>
      simp [transition, recordSeparatorTransition, h.not_escape, hb.comment, hquote, hb.lineFeed,
        hb.carriageReturn, hb.delimiter, hspace]
  · cases hspace : o.isSpace b <;>
      simp [transition, delimiterTransition, h.not_escape, hb.comment, hquote, hb.lineFeed,
        hb.carriageReturn, hb.delimiter, hspace]
  · simp [transition, standardTransition, h.not_escape, hb.comment, hb.lineFeed,
      hb.carriageReturn, hb.delimiter]
  · simp [transition, emptySpaceTransition, h.not_escape, hb.comment, hquote, hb.lineFeed,
      hb.carriageReturn, hb.delimiter]

theorem transition_delimiter (h : Dialect o) (hs : Raw state ∨ state = .unquoted) :
    o.transition state o.delimiterFirstByte = o.delimiterState := by
  obtain ⟨hquote, hn, hr, hc, hspace⟩ := h.delimiter_ne
  have hquote' : o.isQuote o.delimiterFirstByte = false := by simp [isQuote, hquote]
  have hspace' : o.isSpace o.delimiterFirstByte = false := by simp [isSpace, hspace]
  rcases hs with ((rfl | rfl | rfl) | rfl | rfl) | rfl
  · simp [transition, notSetTransition, h.not_escape, hc, hquote', hspace', hn, hr]
  · simp [transition, recordSeparatorTransition, h.not_escape, hc, hquote', hspace', hn, hr]
  · simp [transition, delimiterTransition, h.not_escape, hc, hn, hr]
  · simp [transition, standardTransition, h.not_escape, hc, hn, hr]
  · simp [transition, emptySpaceTransition, h.not_escape, hc, hquote', hn, hr]
  · simp [transition, unquotedTransition, hspace, hc, h.strict, hn, hr, hquote]

theorem transition_openQuote (h : Dialect o) (hs : FieldStart state) :
    o.transition state o.quote = .quoted := by
  obtain ⟨hn, hr, hc, hspace⟩ := h.quote_ne
  have hd : o.quote ≠ o.delimiterFirstByte := fun heq =>
    h.delimiter_ne.1 heq.symm
  have hquote : o.isQuote o.quote = true := by simp [isQuote, h.quote]
  have hspace' : o.isSpace o.quote = false := by simp [isSpace, hspace]
  rcases hs with rfl | rfl | rfl
  · simp [transition, notSetTransition, h.not_escape, hc, hquote, hspace']
  · simp [transition, recordSeparatorTransition, h.not_escape, hc, hquote, hspace', hn, hr]
  · simp [transition, delimiterTransition, h.not_escape, hc, hquote, hspace', hn, hr, hd]

theorem transition_closeQuote (h : Dialect o) (hs : InQuotes state) :
    o.transition state o.quote = .unquoted := by
  obtain ⟨hn, hr, -, -⟩ := h.quote_ne
  have he : o.isEscape o.quote = false := by
    simp only [isEscape, Bool.and_eq_false_iff, decide_eq_false_iff_not]
    by_cases hqe : o.quote = o.escape
    · exact Or.inl (Or.inl (not_not_intro hqe))
    · exact Or.inr hqe
  rcases hs with rfl | rfl
  · simp [transition, quotedTransition, he, hn, hr]
  · simp [transition, quotedNewLineTransition, he]

/-- A byte inside quotes that is neither a quote nor an escape character. -/
theorem transition_quoted (hs : InQuotes state) {b : UInt8} (hquote : b ≠ o.quote)
    (he : o.isEscape b = false) : InQuotes (o.transition state b) := by
  rcases hs with rfl | rfl
  · simp only [transition, quotedTransition, he, hquote, if_false, Bool.false_eq_true]
    split
    · exact Or.inr rfl
    · exact Or.inl rfl
  · simp [transition, quotedNewLineTransition, he, hquote, InQuotes]

theorem transition_escape (h : Dialect o) (hne : o.quote ≠ o.escape) (hs : InQuotes state) :
    o.transition state o.escape = .escape := by
  have he : o.isEscape o.escape = true := by simp [isEscape, hne, h.escape]
  rcases hs with rfl | rfl
  · simp [transition, quotedTransition, he]
  · simp [transition, quotedNewLineTransition, he]

/-- A quote that follows the quote which is its own escape character. -/
theorem transition_reopen (h : Dialect o) (heq : o.quote = o.escape) :
    o.transition .unquoted o.quote = .quoted := by
  obtain ⟨hn, hr, hc, hspace⟩ := h.quote_ne
  simp [transition, unquotedTransition, hspace, hc, h.strict, hn, hr, ← heq]

def RecordEnd (state : CSVState) : Prop :=
  state = .delimiter ∨ state = .standard ∨ state = .emptySpace ∨ state = .unquoted

theorem transition_lineFeed (h : Dialect o) (hnl : o.newLine = .singleN) (hs : RecordEnd state) :
    o.transition state lineFeed = .recordSeparator := by
  have hc := h.newLine_not_comment (lineFeed_mem o)
  have hquote : o.isQuote lineFeed = false := by simp [isQuote, h.quote_ne.1.symm]
  have hr : lineFeed ≠ Csv.carriageReturn := by decide
  have hspace : lineFeed ≠ space := by decide
  rcases hs with rfl | rfl | rfl | rfl
  · simp [transition, delimiterTransition, h.not_escape, hc, hr]
  · simp [transition, standardTransition, h.not_escape, hc, hnl]
  · simp [transition, emptySpaceTransition, h.not_escape, hc, hquote, hr]
  · have hd : lineFeed ≠ o.delimiterFirstByte := fun heq =>
      h.delimiter_ne.2.1 heq.symm
    simp [transition, unquotedTransition, hspace, hc, h.strict, hnl, hr, hd, h.quote_ne.1.symm]

theorem transition_return (h : Dialect o) (hnl : o.newLine = .carryOn) (hs : RecordEnd state) :
    o.transition state Csv.carriageReturn = .carriageReturn := by
  have hc := h.newLine_not_comment (b := Csv.carriageReturn) (by simp [newLineBytes, hnl])
  have hquote : o.isQuote Csv.carriageReturn = false := by simp [isQuote, h.quote_ne.2.1.symm]
  have hn : Csv.carriageReturn ≠ lineFeed := by decide
  have hspace : Csv.carriageReturn ≠ space := by decide
  rcases hs with rfl | rfl | rfl | rfl
  · simp [transition, delimiterTransition, h.not_escape, hc, returnState, hnl]
  · simp [transition, standardTransition, h.not_escape, hc, hnl, hn]
  · simp [transition, emptySpaceTransition, h.not_escape, hc, hquote, returnState, hnl]
  · have hd : Csv.carriageReturn ≠ o.delimiterFirstByte := fun heq =>
      h.delimiter_ne.2.2.1 heq.symm
    simp [transition, unquotedTransition, hspace, hc, h.strict, hnl, hn, hd,
      h.quote_ne.2.1.symm, returnState]

theorem transition_carryOn (h : Dialect o) :
    o.transition .carriageReturn lineFeed = .recordSeparator := by
  have hc := h.newLine_not_comment (lineFeed_mem o)
  have hquote : o.isQuote lineFeed = false := by simp [isQuote, h.quote_ne.1.symm]
  have hspace : o.isSpace lineFeed = false := by
    have : lineFeed ≠ space := by decide
    simp [isSpace, this]
  have hr : lineFeed ≠ Csv.carriageReturn := by decide
  simp [transition, carriageReturnTransition, h.not_escape, hc, hquote, hspace, hr]

/-- The state after the first `read` bytes of a longer delimiter. -/
def insideDelimiter : Nat → CSVState
  | 1 => .delimiterFirstByte
  | 2 => .delimiterSecondByte
  | _ => .delimiterThirdByte

theorem delimiterState_eq (h : Dialect o) :
    o.delimiterState = if o.delimiter.length = 1 then .delimiter else insideDelimiter 1 := by
  have hlength := h.delimiter.1
  unfold delimiterState multiByteDelimiter
  by_cases hone : o.delimiter.length = 1
  · simp [hone]
  · have hmulti : 1 < o.delimiter.length := by omega
    simp [hone, hmulti, insideDelimiter]

theorem transition_insideDelimiter (h : Dialect o) {read : Nat} (hpos : 1 ≤ read)
    (hlt : read < o.delimiter.length) :
    o.transition (insideDelimiter read) (o.delimiterByte read) =
      if o.delimiter.length = read + 1 then .delimiter else insideDelimiter (read + 1) := by
  have hlength := h.delimiter.2
  obtain rfl | rfl | rfl : read = 1 ∨ read = 2 ∨ read = 3 := by omega
  · rcases (by omega : o.delimiter.length = 2 ∨ o.delimiter.length = 3 ∨ o.delimiter.length = 4)
      with hl | hl | hl <;>
      simp [insideDelimiter, transition, delimiterFirstByteTransition, hl]
  · rcases (by omega : o.delimiter.length = 3 ∨ o.delimiter.length = 4) with hl | hl <;>
      simp [insideDelimiter, transition, delimiterSecondByteTransition, hl]
  · have hl : o.delimiter.length = 4 := by omega
    simp [insideDelimiter, transition, delimiterThirdByteTransition, hl]

end Dialect

end CSVStateMachineOptions

end Csv
end MiniDuck
