import MiniDuck.CsvStateMachine

/-!
# The scanner of the CSV reader

`StringValueScanner` runs the state machine over a buffer. Values are not
collected on the way: the positions of the last delimiter and of the
opening quote tell where they are, and escapes are removed when a value is
added. Everything is read in one buffer, all columns are `VARCHAR`, read
and nullable; errors are not ignored and rows not padded with NULLs.

The loop skips bytes that do not change the state. `consume` is the loop
byte by byte, and `process_eq` says that they agree: what is skipped would
have changed nothing (`react_settled`).
-/

namespace MiniDuck
namespace Csv

/-- A value, `none` for NULL. -/
abbrev Row : Type := List (Option Bytes)

structure CSVReaderOptions where
  machine : CSVStateMachineOptions
  nullStr : List Bytes
  allowQuotedNulls : Bool
  maximumLineSize : Nat
  forceQuote : List Bool
  deriving Repr, DecidableEq

inductive CSVErrorType
  | tooManyColumns
  | tooFewColumns
  | unterminatedQuotes
  | invalidEncoding
  | maximumLineSize
  | invalidState
  | internal
  deriving Repr, DecidableEq

/-- `StringValueResult` and what the scanner carries: `states` as `last` and `state`, the rows of
the chunk, and the values of the current row. -/
structure Scanner where
  pos : Nat
  last : CSVState
  state : CSVState
  quoted : Bool
  unquoted : Bool
  escaped : Bool
  comment : Bool
  quotedPosition : Nat
  lastPosition : Nat
  positionBeforeComment : Nat
  lineBegin : Nat
  lineEnd : Nat
  curColId : Nat
  currentErrors : List CSVErrorType
  row : Row
  rows : List Row
  done : Bool
  deriving Repr, DecidableEq

/-- What a scan depends on: the options, the number of columns, the size of a chunk, and which
strings are valid UTF-8. -/
structure Reader where
  options : CSVReaderOptions
  numberOfColumns : Nat
  resultSize : Nat
  isValid : Bytes → Bool

def slice (buffer : Bytes) (start size : Nat) : Bytes := (buffer.drop start).take size

/-! ## Values -/

def removeEscape (escape quote : UInt8) (strictMode : Bool) : Bool → Bytes → Bytes
  | _, [] => []
  | justEscaped, c :: rest =>
      if c = escape ∧ !justEscaped then removeEscape escape quote strictMode true rest
      else if c = quote then
        if justEscaped ∨ !strictMode then c :: removeEscape escape quote strictMode false rest
        else removeEscape escape quote strictMode false rest
      else c :: removeEscape escape quote strictMode false rest

namespace Reader

variable (r : Reader)

def machine : CSVStateMachineOptions := r.options.machine

def extraDelimiterBytes : Nat := r.machine.delimiter.length - 1

def ignoreEmptyValues : Bool :=
  r.machine.delimiterFirstByte ≠ space && r.machine.quote ≠ space && r.machine.escape ≠ space &&
    r.machine.comment ≠ space

def canBeNull (s : Scanner) : Bool := (s.quoted && r.options.allowQuotedNulls) || !s.quoted

/-- `HandleTooManyColumnsError`: the scanner, and whether the value is one too many. -/
def handleTooManyColumnsError (s : Scanner) (value : Bytes) : Scanner × Bool :=
  if r.numberOfColumns ≤ s.curColId ∧ r.machine.strictMode then
    if s.curColId = r.numberOfColumns ∧ r.canBeNull s ∧ value ∈ r.options.nullStr then (s, true)
    else
      ({ s with
          currentErrors := s.currentErrors ++ [.tooManyColumns]
          curColId := s.curColId + 1 }, true)
  else (s, false)

/-- Whether a value is NULL by one of the null strings. -/
def isNull (s : Scanner) (value : Bytes) : Bool :=
  let checkUnquotedEscapedNull :=
    !r.machine.strictMode && s.escaped && !s.quoted && value.length = 1
  r.options.nullStr.any fun nullStr =>
    if nullStr.length = 2 ∧ nullStr.headD 0 = r.machine.escape then
      checkUnquotedEscapedNull && nullStr.getD 1 0 = value.headD 0
    else !checkUnquotedEscapedNull && nullStr = value

def push (s : Scanner) (value : Option Bytes) : Scanner :=
  { s with
    row := s.row ++ [value]
    curColId := s.curColId + 1 }

def addValueToVector (s : Scanner) (value : Bytes) : Scanner :=
  match r.handleTooManyColumnsError s value with
  | (s, true) => s
  | (s, false) =>
      if r.numberOfColumns ≤ s.curColId then s
      else if r.canBeNull s ∧ r.isNull s value then push s none
      else if !r.isValid value then
        push { s with currentErrors := s.currentErrors ++ [.invalidEncoding] } (some [])
      else push s (some value)

def addPossiblyEscapedValue (s : Scanner) (value : Bytes) (empty : Bool) : Scanner :=
  if s.escaped then
    if r.numberOfColumns ≤ s.curColId ∧ !r.machine.strictMode then s
    else
      match r.handleTooManyColumnsError s value with
      | (s, true) => { s with escaped := false }
      | (s, false) =>
          { r.addValueToVector s
              (removeEscape r.machine.escape r.machine.quote r.machine.strictMode false value) with
            escaped := false }
  else { r.addValueToVector s (if empty then [] else value) with escaped := false }

/-- The length of a quoted value without the spaces behind it. -/
def trimSpaces (buffer : Bytes) (start : Nat) : Nat → Nat
  | 0 => 0
  | length + 1 =>
      if r.ignoreEmptyValues ∧ buffer.getD (start + length) 0 = space then
        trimSpaces buffer start length
      else length + 1

def addQuotedValue (buffer : Bytes) (s : Scanner) (bufferPos : Nat) : Scanner :=
  let s := if !s.unquoted then
      { s with currentErrors := s.currentErrors ++ [.unterminatedQuotes] }
    else s
  let start := s.quotedPosition + 1
  let empty : Bool := bufferPos < s.lastPosition + 2
  if bufferPos ≤ start then
    { r.addPossiblyEscapedValue s (slice buffer start 0) empty with quoted := false }
  else
    match r.trimSpaces buffer start (bufferPos - s.quotedPosition - 1) with
    | 0 => { r.addPossiblyEscapedValue s (slice buffer start 0) true with quoted := false }
    | length + 1 =>
        { r.addPossiblyEscapedValue s (slice buffer start length) empty with quoted := false }

/-- `HandleMultiDelimiter`: the size of the value before a delimiter. -/
def handleMultiDelimiter (s : Scanner) (bufferPos : Nat) : Except CSVErrorType Nat :=
  if bufferPos < s.lastPosition + r.extraDelimiterBytes then
    if bufferPos = s.lastPosition then .ok 0 else .error .internal
  else .ok (bufferPos - s.lastPosition - r.extraDelimiterBytes)

def addValue (buffer : Bytes) (s : Scanner) (bufferPos : Nat) : Except CSVErrorType Scanner :=
  if bufferPos < s.lastPosition then .ok s
  else if s.quoted then
    .ok { r.addQuotedValue buffer s (bufferPos - r.extraDelimiterBytes) with
      lastPosition := bufferPos + 1 }
  else
    match r.handleMultiDelimiter s bufferPos with
    | .error e => .error e
    | .ok size =>
        let value := slice buffer s.lastPosition size
        let s :=
          if s.escaped then r.addPossiblyEscapedValue s value false
          else r.addValueToVector s value
        .ok { s with lastPosition := bufferPos + 1 }

/-! ## Rows -/

def isFull (s : Scanner) : Bool := r.resultSize ≤ s.rows.length

/-- `AddRowInternal`: the scanner, and whether the chunk is full. -/
def addRowInternal (s : Scanner) : Except CSVErrorType (Scanner × Bool) :=
  let currentLineSize := s.pos - s.lineEnd
  let errors := s.currentErrors ++
    ((if r.options.maximumLineSize < currentLineSize then [.maximumLineSize] else []) ++
      List.replicate (r.numberOfColumns - s.curColId) .tooFewColumns)
  match errors with
  | e :: _ => .error e
  | [] =>
      let s := { s with
        lineBegin := s.lineEnd
        lineEnd := s.pos
        rows := s.rows ++ [s.row]
        row := []
        curColId := 0 }
      .ok (s, r.isFull s)

def addRow (buffer : Bytes) (s : Scanner) (bufferPos : Nat) :
    Except CSVErrorType (Scanner × Bool) :=
  if s.lastPosition ≤ bufferPos then
    let value := slice buffer s.lastPosition (bufferPos - s.lastPosition)
    let s :=
      if s.quoted then r.addQuotedValue buffer s bufferPos
      else if s.escaped then r.addPossiblyEscapedValue s value (bufferPos = s.lastPosition)
      else r.addValueToVector s value
    let s := { s with
      lastPosition :=
        if r.machine.newLine = .carryOn ∧ s.state ≠ .recordSeparator then bufferPos + 2
        else bufferPos + 1 }
    r.addRowInternal s
  else r.addRowInternal s

def emptyLine (s : Scanner) : Scanner × Bool :=
  let s := { s with
    lastPosition :=
      if s.state = .carriageReturn ∧ r.machine.newLine = .carryOn then s.pos + 2 else s.pos + 1 }
  if r.numberOfColumns = 1 then
    let s := if [] ∈ r.options.nullStr then { s with rows := s.rows ++ [[none]] } else s
    (s, r.isFull s)
  else (s, false)

def setComment (s : Scanner) (bufferPos : Nat) : Scanner :=
  if !s.comment then
    { s with
      positionBeforeComment := bufferPos
      comment := true }
  else s

/-- `UnsetComment`: a value before the comment ends its row. -/
def unsetComment (buffer : Bytes) (s : Scanner) (bufferPos : Nat) :
    Except CSVErrorType (Scanner × Bool) :=
  let before := slice buffer s.lastPosition (s.positionBeforeComment - s.lastPosition)
  let added :=
    if s.lastPosition < s.positionBeforeComment then
      if before.all (· = space) then .ok (s, false)
      else r.addRow buffer s s.positionBeforeComment
    else if s.curColId ≠ 0 then r.addRow buffer s s.positionBeforeComment
    else .ok (s, false)
  match added with
  | .error e => .error e
  | .ok (s, full) =>
      .ok ({ s with
        comment := false
        lastPosition := if r.machine.newLine ≠ .carryOn then bufferPos + 1 else bufferPos + 2
        lineBegin := s.lineEnd
        lineEnd := s.pos
        row := []
        curColId := 0 }, full)

def endLine (buffer : Bytes) (s : Scanner) : Except CSVErrorType (Scanner × Bool) :=
  if s.comment then r.unsetComment buffer s s.pos else r.addRow buffer s s.pos

/-! ## The loop -/

def setQuoted (s : Scanner) (quotedPosition : Nat) : Scanner :=
  { s with
    quotedPosition := if s.quoted then s.quotedPosition else quotedPosition
    quoted := true
    unquoted := true }

def setUnquoted (s : Scanner) : Scanner :=
  { s with
    escaped := (s.last = .unquoted && s.state = .unquoted && r.machine.escape ≠ 0) || s.escaped
    quoted := true }

def onlyRnNewlines : Bool :=
  r.machine.strictMode && r.machine.strictModeSetByUser && r.machine.newLine = .carryOn &&
    r.machine.newLineSetByUser

/-- What the loop does in the state after a byte: the scanner, and whether the loop ends. -/
def react (buffer : Bytes) (s : Scanner) : Except CSVErrorType (Scanner × Bool) :=
  match s.state with
  | .invalid =>
      if s.quoted then
        .ok ({ s with currentErrors := s.currentErrors ++ [.unterminatedQuotes] }, true)
      else .error .invalidState
  | .recordSeparator =>
      if s.last = .recordSeparator ∨ s.last = .notSet then .ok (r.emptyLine s)
      else if s.last ≠ .carriageReturn then r.endLine buffer s
      else .ok (s, false)
  | .carriageReturn =>
      if s.last = .recordSeparator ∨ s.last = .notSet then .ok (r.emptyLine s)
      else if s.last ≠ .carriageReturn then
        if s.comment then r.unsetComment buffer s s.pos
        else if !r.onlyRnNewlines then r.addRow buffer s s.pos
        else .ok (s, false)
      else .ok (s, false)
  | .delimiter =>
      match r.addValue buffer s s.pos with
      | .error e => .error e
      | .ok s => .ok (s, false)
  | .quoted =>
      let escaped : Bool :=
        (s.last = .unquoted || s.last = .maybeQuoted) && r.machine.escape ≠ 0
      .ok (setQuoted { s with escaped := escaped || s.escaped } s.pos, false)
  | .unquoted =>
      .ok (r.setUnquoted { s with escaped := s.last = .maybeQuoted || s.escaped }, false)
  | .escape | .escapedReturn | .unquotedEscape => .ok ({ s with escaped := true }, false)
  | .comment => .ok (setComment s s.pos, false)
  | _ => .ok (s, false)

/-- `CSVStateMachine::Transition`. -/
def advance (s : Scanner) (b : UInt8) : Scanner :=
  { s with
    last := s.state
    state := r.machine.transition s.state b }

/-- How many bytes `SkipToStop` skips, never the last one. -/
def skipToStop (skips : UInt8 → Bool) : Bytes → Nat
  | b :: c :: rest => if skips b then skipToStop skips (c :: rest) + 1 else 0
  | _ => 0

def process (buffer : Bytes) : Nat → Scanner → Except CSVErrorType Scanner
  | 0, s => .ok s
  | fuel + 1, s =>
      match buffer.drop s.pos with
      | [] => .ok s
      | b :: rest =>
          match r.react buffer (r.advance s b) with
          | .error e => .error e
          | .ok (s, true) => .ok { s with pos := s.pos + 1 }
          | .ok (s, false) =>
              process buffer fuel
                { s with pos := s.pos + 1 + skipToStop (r.machine.skips s.state) rest }

/-! ## Chunks -/

/-- `TryMoveToNextBuffer` at the end of the file. -/
def finishFile (buffer : Bytes) (s : Scanner) : Except CSVErrorType Scanner :=
  if s.state = .recordSeparator ∨ s.state = .carriageReturn ∨ s.state = .notSet then
    let rows := if s.curColId = r.numberOfColumns then s.rows ++ [s.row] else s.rows
    .ok { s with
      rows := rows
      row := []
      curColId := 0 }
  else if s.state = .delimiter then
    match r.addValue buffer s buffer.length with
    | .error e => .error e
    | .ok s =>
        (if s.comment then r.unsetComment buffer s s.pos else r.addRow buffer s buffer.length).map
          Prod.fst
  else if (s.state = .quoted ∨ s.state = .quotedNewLine) ∧ r.machine.strictMode then
    if s.quoted then .ok { s with currentErrors := s.currentErrors ++ [.unterminatedQuotes] }
    else .error .invalidState
  else if s.comment then (r.unsetComment buffer s s.pos).map Prod.fst
  else
    let inDelimiter : Bool := s.last = .delimiterFirstByte || s.last = .delimiterSecondByte ||
      s.last = .delimiterThirdByte
    let s := if s.quoted ∧ inDelimiter ∧ r.machine.strictMode then
        { s with currentErrors := s.currentErrors ++ [.unterminatedQuotes] }
      else s
    (r.addRow buffer s buffer.length).map Prod.fst

def reset (s : Scanner) : Scanner :=
  if s.rows = [] then s
  else
    { s with
      rows := []
      row := []
      curColId := 0
      currentErrors := []
      lineBegin := s.pos
      lineEnd := s.pos }

/-- `ParseChunkInternal` after the reset: the loop runs until the chunk is full or the file ends. -/
def parse (buffer : Bytes) : Nat → Scanner → Except CSVErrorType Scanner
  | 0, s => .ok s
  | fuel + 1, s =>
      match r.process buffer buffer.length s with
      | .error e => .error e
      | .ok s =>
          if r.isFull s then .ok s
          else if buffer.length ≤ s.pos then
            match r.finishFile buffer s with
            | .error e => .error e
            | .ok s => .ok { s with done := true }
          else parse buffer fuel s

def parseChunk (buffer : Bytes) (s : Scanner) : Except CSVErrorType Scanner :=
  let s := reset s
  if s.done then .ok s else r.parse buffer (buffer.length + 1) s

def skipBOM (buffer : Bytes) : Nat := if [0xEF, 0xBB, 0xBF] <+: buffer then 3 else 0

def initial (buffer : Bytes) : Scanner where
  pos := skipBOM buffer
  last := .notSet
  state := .notSet
  quoted := false
  unquoted := false
  escaped := false
  comment := false
  quotedPosition := 0
  lastPosition := skipBOM buffer
  positionBeforeComment := 0
  lineBegin := skipBOM buffer
  lineEnd := skipBOM buffer
  curColId := 0
  currentErrors := []
  row := []
  rows := []
  done := false

/-- The rows of the chunks that are still to be parsed. -/
def chunks (buffer : Bytes) : Nat → Scanner → Except CSVErrorType (List Row)
  | 0, _ => .ok []
  | fuel + 1, s =>
      match r.parseChunk buffer s with
      | .error e => .error e
      | .ok s =>
          if s.done then .ok s.rows
          else
            match chunks buffer fuel s with
            | .error e => .error e
            | .ok rows => .ok (s.rows ++ rows)

def scan (buffer : Bytes) : Except CSVErrorType (List Row) :=
  r.chunks buffer (buffer.length + 1) (initial buffer)

/-! ## Byte by byte -/

variable {r}

@[simp] theorem handleTooManyColumnsError_place (s : Scanner) (value : Bytes) :
    (r.handleTooManyColumnsError s value).1.state = s.state ∧
      (r.handleTooManyColumnsError s value).1.pos = s.pos := by
  unfold handleTooManyColumnsError
  split <;> try split
  all_goals exact ⟨rfl, rfl⟩

@[simp] theorem addValueToVector_place (s : Scanner) (value : Bytes) :
    (r.addValueToVector s value).state = s.state ∧ (r.addValueToVector s value).pos = s.pos := by
  unfold addValueToVector
  have hplace := handleTooManyColumnsError_place (r := r) s value
  split
  · rename_i heq
    simpa [heq] using hplace
  · rename_i heq
    rw [heq] at hplace
    split
    · exact hplace
    · split
      · exact hplace
      · split <;> exact hplace

@[simp] theorem addPossiblyEscapedValue_place (s : Scanner) (value : Bytes) (empty : Bool) :
    (r.addPossiblyEscapedValue s value empty).state = s.state ∧
      (r.addPossiblyEscapedValue s value empty).pos = s.pos := by
  unfold addPossiblyEscapedValue
  have hplace := handleTooManyColumnsError_place (r := r) s value
  split
  · split
    · exact ⟨rfl, rfl⟩
    · split
      · rename_i heq
        simpa [heq] using hplace
      · rename_i heq
        rw [heq] at hplace
        simpa using hplace
  · simp

@[simp] theorem addQuotedValue_place (buffer : Bytes) (s : Scanner) (bufferPos : Nat) :
    (r.addQuotedValue buffer s bufferPos).state = s.state ∧
      (r.addQuotedValue buffer s bufferPos).pos = s.pos := by
  unfold addQuotedValue
  cases hunquoted : s.unquoted <;> simp only [Bool.not_true, Bool.not_false, if_true, if_false,
    Bool.false_eq_true]
  all_goals
    split
    · simp
    · split <;> simp

variable {buffer : Bytes} {s s' : Scanner}

theorem addValue_place {bufferPos : Nat} (h : r.addValue buffer s bufferPos = .ok s') :
    s'.state = s.state ∧ s'.pos = s.pos := by
  unfold addValue at h
  split at h
  · cases h
    exact ⟨rfl, rfl⟩
  · split at h
    · cases h
      simp
    · split at h
      · cases h
      · cases h
        dsimp only
        split <;> simp

theorem addRowInternal_place {full : Bool} (h : r.addRowInternal s = .ok (s', full)) :
    s'.state = s.state ∧ s'.pos = s.pos := by
  unfold addRowInternal at h
  dsimp only at h
  split at h
  · cases h
  · cases h
    exact ⟨rfl, rfl⟩

theorem addRow_place {bufferPos : Nat} {full : Bool}
    (h : r.addRow buffer s bufferPos = .ok (s', full)) : s'.state = s.state ∧ s'.pos = s.pos := by
  unfold addRow at h
  split at h
  · have hplace := addRowInternal_place h
    dsimp only at hplace
    split at hplace
    · simpa using hplace
    · split at hplace <;> simpa using hplace
  · exact addRowInternal_place h

theorem unsetComment_place {bufferPos : Nat} {full : Bool}
    (h : r.unsetComment buffer s bufferPos = .ok (s', full)) :
    s'.state = s.state ∧ s'.pos = s.pos := by
  unfold unsetComment at h
  dsimp only at h
  split at h
  · cases h
  · rename_i after _ hadded
    have hplace : after.state = s.state ∧ after.pos = s.pos := by
      split at hadded
      · split at hadded
        · cases hadded
          exact ⟨rfl, rfl⟩
        · exact addRow_place hadded
      · split at hadded
        · exact addRow_place hadded
        · cases hadded
          exact ⟨rfl, rfl⟩
    cases h
    exact hplace

theorem emptyLine_place {full : Bool} (h : r.emptyLine s = (s', full)) :
    s'.state = s.state ∧ s'.pos = s.pos := by
  unfold emptyLine at h
  dsimp only at h
  split at h
  · split at h <;> cases h <;> exact ⟨rfl, rfl⟩
  · cases h
    exact ⟨rfl, rfl⟩

theorem react_place {stop : Bool} (h : r.react buffer s = .ok (s', stop)) :
    s'.state = s.state ∧ s'.pos = s.pos := by
  unfold react at h
  split at h
  case h_1 =>
      split at h <;> cases h
      exact ⟨rfl, rfl⟩
  case h_2 =>
      split at h
      · exact emptyLine_place (Except.ok.inj h)
      · split at h
        · unfold endLine at h
          split at h
          · exact unsetComment_place h
          · exact addRow_place h
        · cases h
          exact ⟨rfl, rfl⟩
  case h_3 =>
      split at h
      · exact emptyLine_place (Except.ok.inj h)
      · split at h
        · split at h
          · exact unsetComment_place h
          · split at h
            · exact addRow_place h
            · cases h
              exact ⟨rfl, rfl⟩
        · cases h
          exact ⟨rfl, rfl⟩
  case h_4 =>
      split at h
      · cases h
      · rename_i hadd
        cases h
        exact addValue_place hadd
  case h_10 =>
      cases h
      unfold setComment
      split <;> exact ⟨rfl, rfl⟩
  all_goals
    cases h
    exact ⟨rfl, rfl⟩

/-- Where bytes are skipped, the scanner has seen what the bytes would tell it. -/
structure Settled (s : Scanner) : Prop where
  quoted : s.state = .quoted → s.quoted = true ∧ s.unquoted = true
  comment : s.state = .comment → s.comment = true

theorem react_settled {stop : Bool} (h : r.react buffer s = .ok (s', stop)) : Settled s' := by
  have hstate := (react_place h).1
  constructor
  · intro hq
    simp only [react, hstate ▸ hq] at h
    cases h
    exact ⟨rfl, rfl⟩
  · intro hc
    simp only [react, hstate ▸ hc] at h
    cases h
    unfold setComment
    split
    · rfl
    · rename_i hcomment
      simpa using hcomment

/-- A byte that is skipped would have moved the scanner on, and no more. -/
theorem react_skipped (h : Settled s) {b : UInt8} (hb : r.machine.skips s.state b = true) :
    r.react buffer (r.advance s b) = .ok ({ s with last := s.state }, false) := by
  have hstate := r.machine.transition_skips hb
  unfold advance
  rw [hstate]
  cases hs : s.state <;> simp only [hs, CSVStateMachineOptions.skips, Bool.false_eq_true] at hb
  case standard => simp [react]
  case quoted =>
      obtain ⟨hq, hu⟩ := h.quoted hs
      cases s
      simp_all [react, setQuoted]
  case comment =>
      have hc := h.comment hs
      cases s
      simp_all [react, setComment]

/-- The loop without skipping, over the bytes from the position of the scanner on. -/
def consume (r : Reader) (buffer : Bytes) : Bytes → Scanner → Except CSVErrorType (Scanner × Bool)
  | [], s => .ok (s, false)
  | b :: rest, s =>
      match r.react buffer (r.advance s b) with
      | .error e => .error e
      | .ok (s, true) => .ok ({ s with pos := s.pos + 1 }, true)
      | .ok (s, false) => consume r buffer rest { s with pos := s.pos + 1 }

theorem consume_last {bytes : Bytes} (hne : bytes ≠ []) (s : Scanner) (last : CSVState) :
    r.consume buffer bytes { s with last := last } = r.consume buffer bytes s := by
  cases bytes with
  | nil => exact absurd rfl hne
  | cons b rest => rfl

theorem skipToStop_lt (skips : UInt8 → Bool) {bytes : Bytes} (hne : bytes ≠ []) :
    skipToStop skips bytes < bytes.length := by
  induction bytes with
  | nil => exact absurd rfl hne
  | cons b rest ih =>
      cases rest with
      | nil => simp [skipToStop]
      | cons c rest =>
          unfold skipToStop
          split
          · exact Nat.succ_lt_succ (ih (by simp))
          · simp

theorem consume_skipped (bytes : Bytes) (h : Settled s) : r.consume buffer bytes s =
      r.consume buffer (bytes.drop (skipToStop (r.machine.skips s.state) bytes))
        { s with pos := s.pos + skipToStop (r.machine.skips s.state) bytes } := by
  induction bytes generalizing s with
  | nil => rfl
  | cons b rest ih =>
      cases rest with
      | nil => rfl
      | cons c rest =>
          cases hb : r.machine.skips s.state b with
          | false => simp [skipToStop, hb]
          | true =>
              have hsettled : Settled { s with last := s.state, pos := s.pos + 1 } :=
                ⟨h.quoted, h.comment⟩
              have hlt := skipToStop_lt (r.machine.skips s.state) (List.cons_ne_nil c rest)
              have hne :
                  (c :: rest).drop (skipToStop (r.machine.skips s.state) (c :: rest)) ≠ [] := by
                simpa [List.drop_eq_nil_iff] using hlt
              rw [consume, react_skipped h hb]
              dsimp only
              rw [ih hsettled]
              simp only [skipToStop, hb, if_true, List.drop_succ_cons]
              rw [Nat.add_assoc, Nat.add_comm 1]
              exact consume_last hne { s with pos := s.pos + _ } s.state

theorem process_eq {fuel : Nat} (hfuel : buffer.length ≤ s.pos + fuel) :
    r.process buffer fuel s = (r.consume buffer (buffer.drop s.pos) s).map Prod.fst := by
  induction fuel generalizing s with
  | zero =>
      have hempty : buffer.drop s.pos = [] := List.drop_eq_nil_of_le (by omega)
      rw [hempty]
      rfl
  | succ fuel ih =>
      rw [process]
      cases hbytes : buffer.drop s.pos with
      | nil => rfl
      | cons b rest =>
          rw [consume]
          dsimp only
          cases hreact : r.react buffer (r.advance s b) with
          | error e => rfl
          | ok result =>
              obtain ⟨after, stop⟩ := result
              cases stop with
              | true => rfl
              | false =>
                  have hrest : rest = buffer.drop (s.pos + 1) := by
                    rw [← List.drop_drop, hbytes]
                    rfl
                  have hpos : after.pos = s.pos := (react_place hreact).2
                  dsimp only
                  rw [ih (by dsimp only; omega)]
                  have hsettled : Settled { after with pos := after.pos + 1 } :=
                    ⟨(react_settled hreact).quoted, (react_settled hreact).comment⟩
                  rw [consume_skipped rest hsettled]
                  simp only [hrest, List.drop_drop, hpos]

end Reader

end Csv
end MiniDuck
