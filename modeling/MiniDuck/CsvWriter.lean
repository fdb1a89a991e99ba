import MiniDuck.CsvScanner

/-!
# The CSV writer

`CSVWriter::WriteChunk` writes rows of strings. A value is quoted when its
column asks for it, when it equals the null string, or when it has a byte
that would end it; quotes and escape characters are then escaped, in two
passes when they differ. `writeQuotedString_quoted` is the value that the
passes amount to: every such character behind an escape character.
-/

namespace MiniDuck
namespace Csv

inductive CSVNewLineMode
  | writeBefore
  | writeAfter
  deriving Repr, DecidableEq

structure CSVWriterOptions where
  newline : Bytes
  requiresQuotes : UInt8 → Bool
  newlineWritingMode : CSVNewLineMode

/-- `CSVWriterState`: the stream and whether a row was written. -/
structure CSVWriterState where
  stream : Bytes
  writtenAnything : Bool
  deriving Repr, DecidableEq

def backslash : UInt8 := 92

/-- `StringUtil::Replace` of a backslash and a letter. -/
def replaceEscape (letter newLetter : UInt8) : Bytes → Bytes
  | a :: b :: rest =>
      if a = backslash ∧ b = letter then newLetter :: replaceEscape letter newLetter rest
      else a :: replaceEscape letter newLetter (b :: rest)
  | rest => rest

def transformNewLine (newLine : Bytes) : Bytes :=
  replaceEscape 110 lineFeed (replaceEscape 114 carriageReturn newLine)

/-- The constructor of `CSVWriterOptions`. -/
def csvWriterOptions (delim : Bytes) (quote : UInt8) (writeNewline : Bytes)
    (commentChar : UInt8) : CSVWriterOptions where
  newline := if writeNewline = [] then [lineFeed] else transformNewLine writeNewline
  requiresQuotes b :=
    b = lineFeed || b = carriageReturn || (commentChar ≠ 0 && b = commentChar) ||
      b = delim.headD 0 || b = quote
  newlineWritingMode := .writeBefore

def writeAfter (writerOptions : CSVWriterOptions) : CSVWriterOptions :=
  { writerOptions with newlineWritingMode := .writeAfter }

/-! ## Values -/

def writeQuoteOrEscape (quoteOrEscape : UInt8) : Bytes :=
  if quoteOrEscape ≠ 0 then [quoteOrEscape] else []

def addEscapes (toBeEscaped escape : UInt8) (val : Bytes) : Bytes :=
  if escape = 0 then val
  else val.flatMap fun c => if c = toBeEscaped then [escape, c] else [c]

def requiresQuotes (str nullStr : Bytes) (requiresQuotes : UInt8 → Bool) : Bool :=
  str = nullStr || str.any requiresQuotes

def writeQuotedString (str : Bytes) (forceQuote : Bool) (nullStr : Bytes)
    (requires : UInt8 → Bool) (quote escape : UInt8) : Bytes :=
  if (forceQuote || requiresQuotes str nullStr requires) ∧ quote ≠ 0 then
    if str.any fun c => c = quote || c = escape then
      let newVal := addEscapes escape escape str
      let newVal := if escape ≠ quote then addEscapes quote escape newVal else newVal
      writeQuoteOrEscape quote ++ newVal ++ writeQuoteOrEscape quote
    else writeQuoteOrEscape quote ++ str ++ writeQuoteOrEscape quote
  else str

/-! ## Chunks -/

section Chunks

variable (options : CSVReaderOptions) (writerOptions : CSVWriterOptions)

def writeValue (colIdx : Nat) : Option Bytes → Bytes
  | none => options.nullStr.headD []
  | some str =>
      writeQuotedString str (options.forceQuote.getD colIdx false) (options.nullStr.headD [])
        writerOptions.requiresQuotes options.machine.quote options.machine.escape

/-- The values from the column `colIdx` on. -/
def writeValues (colIdx : Nat) : Row → Bytes
  | [] => []
  | value :: rest =>
      (if colIdx ≠ 0 then options.machine.delimiter else []) ++
        (writeValue options writerOptions colIdx value ++ writeValues (colIdx + 1) rest)

/-- The rows from the row `rowIdx` on. -/
def writeRows (rowIdx : Nat) : List Row → CSVWriterState → CSVWriterState
  | [], state => state
  | row :: rest, state =>
      let before : Bytes :=
        if rowIdx = 0 ∧ !state.writtenAnything then []
        else if writerOptions.newlineWritingMode = .writeBefore then writerOptions.newline
        else []
      let after : Bytes :=
        if writerOptions.newlineWritingMode = .writeAfter then writerOptions.newline else []
      writeRows (rowIdx + 1) rest
        { stream := state.stream ++
            (before ++ (writeValues options writerOptions 0 row ++ after))
          writtenAnything := (rowIdx = 0 && !state.writtenAnything) || state.writtenAnything }

def writeChunk (state : CSVWriterState) (input : List Row) : CSVWriterState :=
  writeRows options writerOptions 0 input state

def writeTable (chunks : List (List Row)) : Bytes :=
  (chunks.foldl (writeChunk options writerOptions) ⟨[], false⟩).stream

def writeLine (row : Row) : Bytes :=
  writeValues options writerOptions 0 row ++ writerOptions.newline

variable {options writerOptions}

theorem writeRows_stream (hmode : writerOptions.newlineWritingMode = .writeAfter) (rowIdx : Nat)
    (rows : List Row) (state : CSVWriterState) :
    (writeRows options writerOptions rowIdx rows state).stream =
      state.stream ++ rows.flatMap (writeLine options writerOptions) := by
  induction rows generalizing rowIdx state with
  | nil => simp [writeRows]
  | cons row rest ih =>
      rw [writeRows, ih]
      simp [hmode, writeLine, List.append_assoc]

/-- With newlines after the rows, the text is made of lines. -/
theorem writeTable_eq (hmode : writerOptions.newlineWritingMode = .writeAfter)
    (chunks : List (List Row)) :
    writeTable options writerOptions chunks =
      chunks.flatten.flatMap (writeLine options writerOptions) := by
  have hfold : ∀ state : CSVWriterState,
      (chunks.foldl (writeChunk options writerOptions) state).stream =
        state.stream ++ chunks.flatten.flatMap (writeLine options writerOptions) := by
    induction chunks with
    | nil => simp
    | cons chunk rest ih =>
        intro state
        rw [List.foldl_cons, ih, writeChunk, writeRows_stream hmode]
        simp [List.append_assoc]
  simpa [writeTable] using hfold ⟨[], false⟩

end Chunks

/-! ## Escapes -/

def escapeByte (quote escape c : UInt8) : Bytes :=
  if c = quote ∨ c = escape then [escape, c] else [c]

theorem addEscapes_twice {quote escape : UInt8} (he : escape ≠ 0) (hne : escape ≠ quote)
    (val : Bytes) :
    addEscapes quote escape (addEscapes escape escape val) =
      val.flatMap (escapeByte quote escape) := by
  unfold addEscapes
  simp only [he, if_false, List.flatMap_assoc]
  congr 1
  funext c
  by_cases hc : c = escape
  · simp [hc, hne, escapeByte]
  · by_cases hq : c = quote
    · simp [hq, escapeByte, Ne.symm hne]
    · simp [hc, hq, escapeByte]

theorem flatMap_escapeByte_self {quote escape : UInt8} {val : Bytes}
    (h : val.any (fun c => c = quote || c = escape) = false) :
    val.flatMap (escapeByte quote escape) = val := by
  induction val with
  | nil => rfl
  | cons c rest ih =>
      simp only [List.any_cons, Bool.or_eq_false_iff, decide_eq_false_iff_not] at h
      simp [escapeByte, h.1.1, h.1.2, ih h.2]

/-- A quoted value is its bytes between quotes, the special ones escaped. -/
theorem writeQuotedString_quoted {quote escape : UInt8} (hquote : quote ≠ 0) (he : escape ≠ 0)
    {str nullStr : Bytes} {forceQuote : Bool} {requires : UInt8 → Bool}
    (h : (forceQuote || requiresQuotes str nullStr requires) = true) :
    writeQuotedString str forceQuote nullStr requires quote escape =
      quote :: (str.flatMap (escapeByte quote escape) ++ [quote]) := by
  unfold writeQuotedString writeQuoteOrEscape
  rw [if_pos ⟨h, hquote⟩, if_pos hquote]
  cases hany : str.any (fun c => c = quote || c = escape) with
  | false => simp [flatMap_escapeByte_self hany]
  | true =>
      by_cases hne : escape = quote
      · have hbyte : (fun c => if c = quote then [quote, c] else [c]) = escapeByte quote quote := by
          funext c
          simp [escapeByte]
        simp [hne, addEscapes, hquote, hbyte]
      · simp [hne, addEscapes_twice he hne]

theorem removeEscape_flatMap (quote escape : UInt8) (str : Bytes) :
    removeEscape escape quote true false (str.flatMap (escapeByte quote escape)) = str := by
  induction str with
  | nil => rfl
  | cons c rest ih =>
      rw [List.flatMap_cons]
      by_cases hspecial : c = quote ∨ c = escape
      · -- the byte behind an escape character is kept, whichever it is
        have hkept : removeEscape escape quote true true
            (c :: rest.flatMap (escapeByte quote escape)) =
              c :: removeEscape escape quote true false (rest.flatMap (escapeByte quote escape)) := by
          by_cases hq : c = quote <;> simp [removeEscape, hq]
        rw [escapeByte, if_pos hspecial, List.cons_append, List.cons_append, List.nil_append]
        rw [removeEscape, if_pos (by simp), hkept, ih]
      · obtain ⟨hq, he⟩ := not_or.mp hspecial
        rw [escapeByte, if_neg hspecial, List.cons_append, List.nil_append]
        rw [removeEscape, if_neg (by simp [he]), if_neg hq, ih]

end Csv
end MiniDuck
