import MiniDuck.CsvFields

/-!
# Reading what was written

A row ends at the first byte of its newline, where the chunk may be full;
of a newline of two bytes the second is left for what comes next, and
`AtLine` keeps it as pending. `consume_rows` runs over the rows of a chunk,
`chunks_rows` over the chunks, and `csv_round_trip` is the whole scan.
-/

namespace MiniDuck
namespace Csv

open CSVStateMachineOptions

namespace CSVStateMachineOptions

def newLineHead (o : CSVStateMachineOptions) : UInt8 :=
  if o.newLine = .carryOn then Csv.carriageReturn else lineFeed

def newLineTail (o : CSVStateMachineOptions) : Bytes :=
  if o.newLine = .carryOn then [lineFeed] else []

theorem newLineBytes_eq (o : CSVStateMachineOptions) :
    o.newLineBytes = o.newLineHead :: o.newLineTail := by
  unfold newLineBytes newLineHead newLineTail
  split <;> rfl

end CSVStateMachineOptions

namespace Reader

variable {r : Reader} {buffer : Bytes} {w : CSVWriterOptions} {null : Bytes}

/-! ## Lines -/

/-- Between two rows, with the bytes of the last newline that are still to be read. -/
structure AtLine (r : Reader) (s : Scanner) (rows : List Row) (pending : Bytes) : Prop
    extends InRow s rows s.lineEnd [] where
  quoted : s.quoted = false
  escaped : s.escaped = false
  near : s.pos ≤ s.lineEnd + 1
  state : pending = [] ∧ (s.state = .notSet ∨ s.state = .recordSeparator) ∧
      s.lastPosition = s.pos ∨
    pending = [lineFeed] ∧ s.state = .carriageReturn ∧ s.lastPosition = s.pos + 1 ∧
      r.machine.newLine = .carryOn

variable {s : Scanner} {rows : List Row} {pending : Bytes}

theorem reads_pending (buffer : Bytes) (ha : Agrees r null) (hs : AtLine r s rows pending) :
    ∃ s', Reads r buffer pending s s' ∧ AtField s' rows s.lineEnd [] ∧
      s'.pos = s.pos + pending.length ∧ (s'.state = .notSet ∨ s'.state = .recordSeparator) := by
  rcases hs.state with ⟨rfl, hstate, hposition⟩ | ⟨rfl, hstate, hposition, -⟩
  · refine ⟨s, Reads.nil s, ⟨hs.toInRow, ?_, hposition, hs.quoted, hs.escaped⟩, rfl, hstate⟩
    exact hstate.imp_right Or.inl
  · have hnext := ha.dialect.transition_carryOn
    have hreact : r.react buffer (r.advance s lineFeed) = .ok (r.advance s lineFeed, false) := by
      simp [react, advance, hstate, hnext]
    refine ⟨_, Reads.single hreact, ⟨⟨hs.comment, hs.errors, hs.done, hs.rows, rfl, hs.row,
      hs.column⟩, ?_, hposition, hs.quoted, hs.escaped⟩, rfl, ?_⟩
    · exact Or.inr (Or.inl (by simp [advance, hstate, hnext]))
    · exact Or.inr (by simp [advance, hstate, hnext])

theorem react_newLine (buffer : Bytes) (ha : Agrees r null) (hs : Dialect.RecordEnd s.state)
    (hcomment : s.comment = false) : r.react buffer (r.advance s r.machine.newLineHead) =
      r.addRow buffer (r.advance s r.machine.newLineHead) s.pos := by
  have hlast : s.state ≠ .recordSeparator ∧ s.state ≠ .notSet ∧ s.state ≠ .carriageReturn := by
    rcases hs with h | h | h | h <;> simp [h]
  unfold newLineHead
  rcases ha.dialect.newLine with hnl | hnl
  · have hnext := ha.dialect.transition_lineFeed hnl hs
    simp [hnl, react, advance, hnext, hlast, endLine, hcomment]
  · have hnext := ha.dialect.transition_return hnl hs
    simp [hnl, react, advance, hnext, hlast, hcomment, ha.newLines]

theorem newLineHead_state (ha : Agrees r null) (hs : Dialect.RecordEnd s.state) :
    r.machine.newLine = .carryOn ∧
        r.machine.transition s.state r.machine.newLineHead = .carriageReturn ∨
      r.machine.newLine = .singleN ∧
        r.machine.transition s.state r.machine.newLineHead = .recordSeparator := by
  unfold newLineHead
  rcases ha.dialect.newLine with hnl | hnl
  · exact Or.inr ⟨hnl, by simpa [hnl] using ha.dialect.transition_lineFeed hnl hs⟩
  · exact Or.inl ⟨hnl, by simpa [hnl] using ha.dialect.transition_return hnl hs⟩

/-- A complete row of a line that is not too long is added. -/
theorem addRowInternal_complete (hrows : s.rows = rows) (herrors : s.currentErrors = [])
    (hcolumn : s.curColId = r.numberOfColumns)
    (hline : s.pos ≤ s.lineEnd + r.options.maximumLineSize) : r.addRowInternal s = .ok
      ({ s with
          lineBegin := s.lineEnd
          lineEnd := s.pos
          rows := rows ++ [s.row]
          row := []
          curColId := 0 }, decide (r.resultSize ≤ rows.length + 1)) := by
  have hsize : ¬r.options.maximumLineSize < s.pos - s.lineEnd := by omega
  simp [addRowInternal, hrows, herrors, hcolumn, hsize, isFull]

/-- The end of a row leaves the scanner between two rows. -/
theorem react_newLine_row (ha : Agrees r null) {lineEnd : Nat} {values : Row} {value : Option Bytes}
    (hs : AtEnd r buffer s rows lineEnd values value) (hstate : Dialect.RecordEnd s.state)
    (hlength : values.length + 1 = r.numberOfColumns)
    (hline : s.pos ≤ lineEnd + r.options.maximumLineSize) :
    ∃ s', r.react buffer (r.advance s r.machine.newLineHead) =
        .ok (s', decide (r.resultSize ≤ rows.length + 1)) ∧ s'.pos = s.pos ∧
      AtLine r { s' with pos := s'.pos + 1 } (rows ++ [values ++ [value]])
        r.machine.newLineTail := by
  have hadd := (hs.ended.move s.pos s.state
    (r.machine.transition s.state r.machine.newLineHead)).addRow ha
    (by dsimp only; rw [hs.column]; omega) hs.position
  have hcomplete := addRowInternal_complete (r := r)
    (s := { pushed (r.advance s r.machine.newLineHead) value with
      lastPosition := if r.machine.newLine = .carryOn ∧
        r.machine.transition s.state r.machine.newLineHead ≠ .recordSeparator then s.pos + 2
        else s.pos + 1 })
    hs.rows hs.errors (by simp [pushed, advance, hs.column, hlength])
    (by simpa [pushed, advance, hs.lineEnd] using hline)
  have hreact := (react_newLine buffer ha hstate hs.comment).trans
    (hadd.trans hcomplete)
  refine ⟨_, hreact, rfl, ?_⟩
  refine ⟨⟨hs.comment, hs.errors, hs.done, ?_, rfl, rfl, rfl⟩, rfl, rfl, ?_, ?_⟩
  · simp [pushed, advance, hs.row]
  · simp [pushed, advance]
  · rcases newLineHead_state ha hstate with ⟨hnl, hnext⟩ | ⟨hnl, hnext⟩
    · refine Or.inr ⟨by simp [newLineTail, hnl], ?_, ?_, hnl⟩
      · simp [pushed, advance, hnext]
      · simp [pushed, advance, hnext, hnl]
    · refine Or.inl ⟨by simp [newLineTail, hnl], Or.inr ?_, ?_⟩
      · simp [pushed, advance, hnext]
      · simp [pushed, advance, hnl]

/-- A line adds its row, and the loop goes on unless the chunk is full. -/
theorem consume_line (ha : Agrees r null) (hw : Protects r w) {s : Scanner} {rows : List Row}
    {pending rest : Bytes} {row : Row} (hs : AtLine r s rows pending)
    (hcolumns : row.length = r.numberOfColumns)
    (hvalid : ∀ v ∈ row, ∀ str ∈ v, r.isValid str = true)
    (hline : (writeValues r.options w 0 row ++ r.machine.newLineBytes).length ≤
      r.options.maximumLineSize)
    (hbuffer : buffer.drop s.pos =
      pending ++ (writeValues r.options w 0 row ++ r.machine.newLineHead :: rest)) :
    ∃ s', AtLine r s' (rows ++ [row]) r.machine.newLineTail ∧ buffer.drop s'.pos = rest ∧
      r.consume buffer (buffer.drop s.pos) s =
        if r.resultSize ≤ rows.length + 1 then .ok (s', true)
        else r.consume buffer rest s' := by
  obtain ⟨s₁, hpending, hfield, hpos₁, -⟩ := reads_pending buffer ha hs
  have hbuffer₁ : buffer.drop s₁.pos =
      writeValues r.options w 0 row ++ r.machine.newLineHead :: rest := by
    rw [hpos₁, ← List.drop_drop, hbuffer, List.drop_left]
  obtain ⟨s₂, values, value, hrow, hend, hvalues, hpos₂, hstate⟩ :=
    reads_row ha hw hfield hcolumns hvalid hbuffer₁
  have hbuffer₂ : buffer.drop s₂.pos = r.machine.newLineHead :: rest := by
    rw [hpos₂, ← List.drop_drop, hbuffer₁, List.drop_left]
  have hlength : values.length + 1 = r.numberOfColumns := by
    rw [← hcolumns, ← hvalues]
    simp
  have hpendingLength : pending.length + 1 ≤ r.machine.newLineBytes.length := by
    rcases hs.state with ⟨rfl, -⟩ | ⟨rfl, -, -, hnl⟩
    · simp [newLineBytes_eq]
    · simp [newLineBytes, hnl]
  have hsize : s₂.pos ≤ s.lineEnd + r.options.maximumLineSize := by
    have hnear := hs.near
    rw [List.length_append] at hline
    omega
  obtain ⟨s', hreact, hpos', hatLine⟩ := react_newLine_row ha hend hstate hlength hsize
  refine ⟨_, hvalues ▸ hatLine, ?_, ?_⟩
  · dsimp only
    rw [hpos', ← List.drop_drop, hbuffer₂]
    rfl
  · rw [hbuffer, consume_append hpending, consume_append hrow, consume, hreact]
    by_cases hfull : r.resultSize ≤ rows.length + 1
    · rw [decide_eq_true hfull, if_pos hfull]
    · rw [decide_eq_false hfull, if_neg hfull]

/-! ## Chunks -/

def lines (r : Reader) (w : CSVWriterOptions) (rows : List Row) : Bytes :=
  rows.flatMap fun row => writeValues r.options w 0 row ++ r.machine.newLineBytes

theorem lines_cons (row : Row) (rows : List Row) :
    lines r w (row :: rows) = writeValues r.options w 0 row ++
      r.machine.newLineHead :: (r.machine.newLineTail ++ lines r w rows) := by
  simp [lines, newLineBytes_eq, List.append_assoc]

theorem length_le_lines (rows : List Row) : rows.length ≤ (lines r w rows).length := by
  induction rows with
  | nil => exact Nat.zero_le _
  | cons row rest ih =>
      rw [lines_cons]
      simp only [List.length_cons, List.length_append]
      omega

/-- Rows of the right width, with valid values, on lines that are not too long. -/
structure Readable (r : Reader) (w : CSVWriterOptions) (rows : List Row) : Prop where
  columns : ∀ row ∈ rows, row.length = r.numberOfColumns
  valid : ∀ row ∈ rows, ∀ value ∈ row, ∀ str ∈ value, r.isValid str = true
  line : ∀ row ∈ rows, (writeValues r.options w 0 row ++ r.machine.newLineBytes).length ≤
    r.options.maximumLineSize

theorem Readable.of_subset {rows' : List Row} (h : Readable r w rows)
    (hsub : ∀ row ∈ rows', row ∈ rows) : Readable r w rows' :=
  ⟨fun row hrow => h.columns row (hsub row hrow), fun row hrow => h.valid row (hsub row hrow),
    fun row hrow => h.line row (hsub row hrow)⟩

/-- The loop over lines stops when the chunk is full, or with the last line. -/
theorem consume_rows (ha : Agrees r null) (hw : Protects r w) (rows : List Row) {before : List Row}
    (hs : AtLine r s before pending) (hroom : before.length < r.resultSize)
    (hrows : Readable r w rows) (hbuffer : buffer.drop s.pos = pending ++ lines r w rows) :
    (∃ s' done todo, rows = done ++ todo ∧ done ≠ [] ∧
        r.consume buffer (buffer.drop s.pos) s = .ok (s', true) ∧
        AtLine r s' (before ++ done) r.machine.newLineTail ∧
        r.resultSize ≤ (before ++ done).length ∧
        buffer.drop s'.pos = r.machine.newLineTail ++ lines r w todo) ∨
      ∃ s' lineEnd, r.consume buffer (buffer.drop s.pos) s = .ok (s', false) ∧
        AtField s' (before ++ rows) lineEnd [] ∧
        (s'.state = .notSet ∨ s'.state = .recordSeparator) ∧
        (before ++ rows).length < r.resultSize ∧ buffer.length ≤ s'.pos := by
  induction rows generalizing s before pending with
  | nil =>
      obtain ⟨s', hpending, hfield, hpos, hstate⟩ := reads_pending buffer ha hs
      have hempty : buffer.drop s'.pos = [] := by
        rw [hpos, ← List.drop_drop, hbuffer, List.drop_left]
        rfl
      rw [List.append_nil] at *
      have hpendingOnly : buffer.drop s.pos = pending := by simpa [lines] using hbuffer
      refine Or.inr ⟨s', s.lineEnd, hpendingOnly ▸ hpending, ?_, hstate, ?_,
        List.drop_eq_nil_iff.mp hempty⟩
      · simpa using hfield
      · simpa using hroom
  | cons row rest ih =>
      rw [lines_cons] at hbuffer
      obtain ⟨s₁, hatLine, hbuffer₁, hconsume⟩ := consume_line ha hw hs
        (hrows.columns row (List.mem_cons_self ..)) (hrows.valid row (List.mem_cons_self ..))
        (hrows.line row (List.mem_cons_self ..)) hbuffer
      rw [hconsume]
      by_cases hfull : r.resultSize ≤ before.length + 1
      · rw [if_pos hfull]
        refine Or.inl ⟨s₁, [row], rest, rfl, List.cons_ne_nil _ _, rfl, hatLine, ?_, hbuffer₁⟩
        simpa using hfull
      · rw [if_neg hfull, ← hbuffer₁]
        rcases ih hatLine (by simp; omega)
          (hrows.of_subset fun row' hrow' => List.mem_cons_of_mem _ hrow') hbuffer₁ with
          ⟨s', done, todo, rfl, -, hrest, hatLine', hfull', hbuffer'⟩ |
          ⟨s', lineEnd, hrest, hfield, hstate, hroom', hend⟩
        · refine Or.inl ⟨s', row :: done, todo, rfl, List.cons_ne_nil _ _, hrest, ?_, ?_, hbuffer'⟩
          · simpa [List.append_assoc] using hatLine'
          · simpa using hfull'
        · refine Or.inr ⟨s', lineEnd, hrest, ?_, hstate, ?_, hend⟩
          · simpa [List.append_assoc] using hfield
          · simpa using hroom'

theorem reset_atLine (hs : AtLine r s rows pending) :
    AtLine r (reset s) [] pending ∧ (reset s).pos = s.pos := by
  unfold reset
  split
  · rename_i hempty
    have hrows : rows = [] := hs.rows.symm.trans hempty
    exact ⟨hrows ▸ hs, rfl⟩
  · refine ⟨⟨⟨hs.comment, rfl, hs.done, rfl, rfl, rfl, rfl⟩, hs.quoted, hs.escaped,
      Nat.le_succ _, ?_⟩, rfl⟩
    exact hs.state

/-- A chunk has the next rows, and is the last one when it is not full. -/
theorem parseChunk_rows (ha : Agrees r null) (hw : Protects r w) {before : List Row}
    (hs : AtLine r s before pending) (hrows : Readable r w rows)
    (hbuffer : buffer.drop s.pos = pending ++ lines r w rows) :
    (∃ s' done todo, rows = done ++ todo ∧ done ≠ [] ∧ r.parseChunk buffer s = .ok s' ∧
        AtLine r s' done r.machine.newLineTail ∧
        buffer.drop s'.pos = r.machine.newLineTail ++ lines r w todo) ∨
      ∃ s', r.parseChunk buffer s = .ok s' ∧ s'.done = true ∧ s'.rows = rows := by
  obtain ⟨hreset, hpos⟩ := reset_atLine hs
  rw [← hpos] at hbuffer
  have hprocess : r.process buffer buffer.length (reset s) = _ :=
    process_eq (Nat.le_add_left _ _)
  unfold parseChunk
  dsimp only
  rw [hreset.done, if_neg (by simp), parse, hprocess]
  rcases consume_rows ha hw rows hreset ha.resultSize hrows hbuffer with
    ⟨s', done, todo, hsplit, hne, hconsume, hatLine, hfull, hbuffer'⟩ |
    ⟨s', lineEnd, hconsume, hfield, hstate, hroom, hend⟩
  · have hfull' : r.isFull s' = true := by
      rw [isFull, hatLine.rows]
      exact decide_eq_true hfull
    rw [hconsume]
    refine Or.inl ⟨s', done, todo, hsplit, hne, ?_, by simpa using hatLine, hbuffer'⟩
    simp [Except.map, hfull']
  · have hfull' : r.isFull s' = false := by
      rw [isFull, hfield.rows]
      exact decide_eq_false (by omega)
    have hcolumn : s'.curColId ≠ r.numberOfColumns := by
      have htwo := ha.columns
      rw [hfield.column]
      simp
      omega
    have hfinish : r.finishFile buffer s' = .ok { s' with
        row := []
        curColId := 0 } := by
      unfold finishFile
      rw [if_pos (by rcases hstate with h | h <;> simp [h])]
      simp [hcolumn]
    rw [hconsume]
    refine Or.inr ⟨{ s' with
      row := []
      curColId := 0
      done := true }, ?_, rfl, by simpa using hfield.rows⟩
    simp [Except.map, hfull', hend, hfinish]

theorem chunks_rows (ha : Agrees r null) (hw : Protects r w) (fuel : Nat) {before : List Row}
    (hs : AtLine r s before pending) (hrows : Readable r w rows) (hfuel : rows.length < fuel)
    (hbuffer : buffer.drop s.pos = pending ++ lines r w rows) :
    r.chunks buffer fuel s = .ok rows := by
  induction fuel generalizing rows s before pending with
  | zero => exact absurd hfuel (Nat.not_lt_zero _)
  | succ fuel ih =>
      rw [chunks]
      rcases parseChunk_rows ha hw hs hrows hbuffer with
        ⟨s', done, todo, rfl, hne, hparse, hatLine, hbuffer'⟩ | ⟨s', hparse, hdone, hrows'⟩
      · have hpositive := List.length_pos_iff.mpr hne
        rw [List.length_append] at hfuel
        have hrest := ih hatLine
          (hrows.of_subset fun row hrow => List.mem_append_right _ hrow) (by omega) hbuffer'
        rw [hparse]
        dsimp only
        rw [hatLine.done, if_neg (by simp), hrest, hatLine.rows]
      · rw [hparse]
        dsimp only
        rw [hdone, if_pos rfl, hrows']

theorem protects_writeAfter (writeNewline : Bytes) {commentChar : UInt8}
    (hcomment : r.machine.comment ≠ 0 → commentChar = r.machine.comment) :
    Protects r (writeAfter (csvWriterOptions r.machine.delimiter r.machine.quote writeNewline
      commentChar)) := by
  intro b hb
  simp only [writeAfter, csvWriterOptions, Bool.or_eq_false_iff, decide_eq_false_iff_not] at hb
  obtain ⟨⟨⟨⟨hn, hreturn⟩, hc⟩, hdelimiter⟩, hquote⟩ := hb
  refine ⟨hdelimiter, hn, hreturn, hquote, ?_⟩
  unfold isComment
  by_cases hset : r.machine.comment = 0
  · simp [hset]
  · rw [hcomment hset] at hc
    simpa [hset] using hc

end Reader

/-! ## The round trip -/

theorem plain_of_not_special {o : CSVStateMachineOptions} (hd : o.Dialect) {b : UInt8}
    (hspecial : b ∉ o.specialBytes) (hreturn : b ≠ carriageReturn) : o.Plain b ∧ b ≠ o.escape := by
  simp only [specialBytes, controlBytes, List.mem_append, not_or, List.mem_singleton] at hspecial
  obtain ⟨hdelimiter, hquote, hescape, hcomment, hnewLine⟩ := hspecial
  refine ⟨⟨?_, ?_, hreturn, hquote, ?_⟩, ?_⟩
  · exact fun heq => hdelimiter (heq ▸ hd.delimiterFirstByte_mem)
  · exact fun heq => hnewLine (heq ▸ Dialect.lineFeed_mem o)
  · by_contra hc
    exact hcomment (Dialect.comment_mem (by simpa using hc))
  · intro heq
    by_cases hsame : o.escape = o.quote
    · exact hquote (heq.trans hsame)
    · exact hescape (by simp [hsame, heq])

/-- What was written is read back: every table of valid strings and NULLs, chunk by chunk. -/
theorem csv_round_trip (r : Reader) (writeNewline null : Bytes) (commentChar : UInt8)
    (chunks : List (List Row)) (w : CSVWriterOptions)
    (hw : w = writeAfter (csvWriterOptions r.machine.delimiter r.machine.quote writeNewline
      commentChar))
    (hd : r.machine.Dialect) (hnewline : w.newline = r.machine.newLineBytes)
    (hcomment : r.machine.comment ≠ 0 → commentChar = r.machine.comment)
    (hnull : r.options.nullStr = [null])
    (hfree : ∀ b ∈ null, b ∉ r.machine.specialBytes ∧ b ≠ carriageReturn)
    (hquoted : r.options.allowQuotedNulls = false)
    (hcolumns : 2 ≤ r.numberOfColumns) (hsize : 0 < r.resultSize)
    (hrows : ∀ row ∈ chunks.flatten, row.length = r.numberOfColumns)
    (hvalid : ∀ row ∈ chunks.flatten, ∀ value ∈ row, ∀ str ∈ value, r.isValid str = true)
    (hline : ∀ row ∈ chunks.flatten,
      (writeLine r.options w row).length ≤ r.options.maximumLineSize)
    (hbom : Reader.skipBOM (writeTable r.options w chunks) = 0)
    (hnewLines : r.onlyRnNewlines = false) :
    r.scan (writeTable r.options w chunks) = .ok chunks.flatten := by
  have hagrees : Reader.Agrees r null :=
    ⟨hd, hnull, fun b hb => (plain_of_not_special hd (hfree b hb).1 (hfree b hb).2).1,
      fun hmem => (plain_of_not_special hd (hfree _ hmem).1 (hfree _ hmem).2).2 rfl, hquoted,
      hnewLines, hcolumns, hsize⟩
  have hprotects : Reader.Protects r w := by
    rw [hw]
    exact Reader.protects_writeAfter writeNewline hcomment
  have hmode : w.newlineWritingMode = .writeAfter := by rw [hw]; rfl
  have htext : writeTable r.options w chunks = Reader.lines r w chunks.flatten := by
    rw [writeTable_eq hmode, Reader.lines]
    congr 1
    funext row
    rw [writeLine, hnewline]
  have hreadable : Reader.Readable r w chunks.flatten := by
    refine ⟨hrows, hvalid, fun row hrow => ?_⟩
    rw [← hnewline]
    exact hline row hrow
  have hatLine : Reader.AtLine r (Reader.initial (writeTable r.options w chunks)) [] [] := by
    refine ⟨⟨rfl, rfl, rfl, rfl, rfl, rfl, rfl⟩, rfl, rfl, Nat.le_succ _, ?_⟩
    exact Or.inl ⟨rfl, Or.inl rfl, rfl⟩
  have hpos : (Reader.initial (writeTable r.options w chunks)).pos = 0 := hbom
  refine Reader.chunks_rows hagrees hprotects _ hatLine hreadable ?_ ?_
  · rw [htext]
    exact Nat.lt_succ_of_le (Reader.length_le_lines _)
  · rw [hpos, List.drop_zero, htext, List.nil_append]

def strictOptions (delimiter quote : UInt8) (newLine : NewLineIdentifier) (setByUser : Bool) :
    CSVStateMachineOptions where
  delimiter := [delimiter]
  quote := quote
  escape := quote
  comment := 0
  newLine := newLine
  newLineSetByUser := setByUser
  strictMode := true
  strictModeSetByUser := setByUser

def twoColumns (machine : CSVStateMachineOptions) (null : Bytes) (maximumLineSize : Nat) :
    Reader where
  options :=
    { machine := machine
      nullStr := [null]
      allowQuotedNulls := false
      maximumLineSize := maximumLineSize
      forceQuote := [] }
  numberOfColumns := 2
  resultSize := 2048
  isValid _ := true

/-- The rows that are read when `row` is written. -/
def readBack (r : Reader) (writeNewline : Bytes) (rows : List Row) :
    Except CSVErrorType (List Row) :=
  r.scan (writeTable r.options (writeAfter (csvWriterOptions r.machine.delimiter r.machine.quote
    writeNewline 0)) [rows])

set_option maxRecDepth 4000 in
theorem csv_round_trip_quoted :
    readBack (twoColumns (strictOptions 44 34 .carryOn false) [] 100) [13, 10]
        [[some [32, 34, 10], none], [some [], some [44, 32]]] =
      .ok [[some [32, 34, 10], none], [some [], some [44, 32]]] :=
  csv_round_trip _ [13, 10] [] 0 [[[some [32, 34, 10], none], [some [], some [44, 32]]]] _ rfl
    ⟨rfl, by decide, by decide, by decide, by decide, by decide, by decide, by decide, by decide⟩
    rfl (by decide) rfl (by decide) rfl (by decide) (by decide) (by decide)
    (fun _ _ _ _ _ _ => rfl) (by decide) (by decide) rfl

set_option maxRecDepth 4000 in
/-- A byte order mark at the start, a line longer than the maximum, a carriage return in the null
string, as the delimiter or as the quote, and rows that are never added. -/
theorem csv_round_trip_fails :
    (strictOptions 44 34 .singleN false).Dialect ∧ (strictOptions 44 34 .carryOn true).Dialect ∧
    readBack (twoColumns (strictOptions 44 34 .singleN false) [] 100) [10]
        [[some [0xEF, 0xBB, 0xBF, 97], some [98]]] = .ok [[some [97], some [98]]] ∧
    readBack (twoColumns (strictOptions 44 34 .singleN false) [] 3) [10]
        [[some [97], some [98, 98]]] = .error .maximumLineSize ∧
    readBack (twoColumns (strictOptions 44 34 .singleN false) [13] 100) [10]
        [[some [97], none]] = .ok [[some [97], some []]] ∧
    readBack (twoColumns (strictOptions 13 34 .singleN false) [] 100) [10]
        [[some [97], some [98]]] = .error .invalidState ∧
    readBack (twoColumns (strictOptions 44 13 .singleN false) [] 100) [10]
        [[some [44], some [98]]] = .ok [] ∧
    readBack (twoColumns (strictOptions 44 34 .carryOn true) [] 100) [13, 10]
        [[some [97], some [98]], [some [99], some [100]]] =
      .ok [[some [97], some [98, 13, 10, 99]]] :=
  ⟨⟨rfl, by decide, by decide, by decide, by decide, by decide, by decide, by decide, by decide⟩,
    ⟨rfl, by decide, by decide, by decide, by decide, by decide, by decide, by decide, by decide⟩,
    rfl, rfl, rfl, rfl, rfl, rfl⟩

end Csv
end MiniDuck
