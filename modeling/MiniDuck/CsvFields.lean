import MiniDuck.CsvWriter

/-!
# Reading the fields that were written

`Reads` is a stretch of the loop that does not end a chunk; stretches
compose by `Reads.append`. The scanner reads a written row field by field:
between fields only `InRow` matters, and at the end of a field `Ended` says
which value its positions and flags stand for. `reads_row` is the row up to
its newline.
-/

namespace MiniDuck
namespace Csv

open CSVStateMachineOptions

namespace Reader

variable {r : Reader} {buffer : Bytes}

def Reads (r : Reader) (buffer bytes : Bytes) (s s' : Scanner) : Prop :=
  r.consume buffer bytes s = .ok (s', false)

theorem Reads.nil (s : Scanner) : Reads r buffer [] s s := rfl

variable {s : Scanner}

theorem consume_append {first : Bytes} {s' : Scanner} (h : Reads r buffer first s s')
    (second : Bytes) : r.consume buffer (first ++ second) s = r.consume buffer second s' := by
  induction first generalizing s with
  | nil =>
      cases h
      rfl
  | cons b rest ih =>
      rw [List.cons_append, consume]
      unfold Reads at h
      rw [consume] at h
      split at h
      · cases h
      · cases h
      · exact ih h

theorem Reads.append {first second : Bytes} {s' s'' : Scanner} (h : Reads r buffer first s s')
    (h' : Reads r buffer second s' s'') : Reads r buffer (first ++ second) s s'' :=
  (consume_append h second).trans h'

theorem Reads.single {b : UInt8} {s t : Scanner}
    (h : r.react buffer (r.advance s b) = .ok (t, false)) :
    Reads r buffer [b] s { t with pos := t.pos + 1 } := by
  unfold Reads
  simp [consume, h]

/-! ## Fields without quotes -/

/-- A byte of a field without quotes moves the scanner on. -/
theorem reads_plain (buffer : Bytes) (hd : r.machine.Dialect) (hs : Raw s.state) {b : UInt8}
    (hb : r.machine.Plain b) : ∃ state, Raw state ∧ Reads r buffer [b] s
      { s with
        pos := s.pos + 1
        last := s.state
        state := state } ∧ (state = .standard ∨ state = .emptySpace) := by
  have hreact : r.react buffer (r.advance s b) = .ok (r.advance s b, false) := by
    rcases hd.transition_plain hs hb with h | h <;> simp [react, advance, h]
  rcases hd.transition_plain hs hb with h | h
  · refine ⟨_, Or.inr (Or.inl h), Reads.single hreact, Or.inl h⟩
  · refine ⟨_, Or.inr (Or.inr h), Reads.single hreact, Or.inr h⟩

theorem reads_raw (buffer : Bytes) (hd : r.machine.Dialect) (str : Bytes) (hs : Raw s.state)
    (hplain : ∀ b ∈ str, r.machine.Plain b) :
    ∃ last state, (state = s.state ∨ state = .standard ∨ state = .emptySpace) ∧
      Reads r buffer str s
        { s with
          pos := s.pos + str.length
          last := last
          state := state } := by
  induction str generalizing s with
  | nil => exact ⟨s.last, s.state, Or.inl rfl, Reads.nil s⟩
  | cons b rest ih =>
      obtain ⟨state, hraw, hread, hstate⟩ :=
        reads_plain buffer hd hs (hplain b (List.mem_cons_self ..))
      obtain ⟨last, final, hfinal, hrest⟩ := ih (s := { s with
        pos := s.pos + 1
        last := s.state
        state := state }) hraw fun c hc => hplain c (List.mem_cons_of_mem _ hc)
      refine ⟨last, final, Or.inr ?_, ?_⟩
      · rcases hfinal with hfinal | hfinal
        · exact hfinal ▸ hstate
        · exact hfinal
      · have happend := hread.append hrest
        simpa [Nat.add_assoc, Nat.add_comm 1] using happend

/-! ## Fields in quotes -/

theorem reads_quoted (buffer : Bytes) {s : Scanner} (hs : InQuotes s.state) (hq : s.quoted = true)
    (hu : s.unquoted = true) {c : UInt8} (hquote : c ≠ r.machine.quote)
    (he : c ≠ r.machine.escape) :
    ∃ state, InQuotes state ∧ Reads r buffer [c] s
      { s with
        pos := s.pos + 1
        last := s.state
        state := state } := by
  have hnext := Dialect.transition_quoted hs hquote (by simp [isEscape, he])
  refine ⟨_, hnext, Reads.single (t := r.advance s c) ?_⟩
  have hlast : s.state ≠ .unquoted ∧ s.state ≠ .maybeQuoted := by
    rcases hs with hs | hs <;> simp [hs]
  rcases hnext with h | h
  · simp [react, advance, h, setQuoted, hq, hu, hlast.1, hlast.2]
  · simp [react, advance, h]

theorem reads_doubledQuote (hd : r.machine.Dialect) (heq : r.machine.quote = r.machine.escape)
    (hs : InQuotes s.state) (hq : s.quoted = true) (hu : s.unquoted = true) :
    Reads r buffer ([r.machine.quote] ++ [r.machine.quote]) s
      { s with
        pos := s.pos + 1 + 1
        last := .unquoted
        state := .quoted
        escaped := true } := by
  have hclose := hd.transition_closeQuote hs
  have hreopen := hd.transition_reopen heq
  have hescape := hd.escape
  have hlast : s.state ≠ .unquoted ∧ s.state ≠ .maybeQuoted := by
    rcases hs with hs | hs <;> simp [hs]
  have hfirst : Reads r buffer [r.machine.quote] s
      { s with
        pos := s.pos + 1
        last := s.state
        state := .unquoted } := by
    refine Reads.single (t := { s with
      last := s.state
      state := .unquoted }) ?_
    simp [react, advance, hclose, setUnquoted, hq, hlast.1, hlast.2]
  refine hfirst.append ?_
  refine Reads.single (t := { s with
    pos := s.pos + 1
    last := .unquoted
    state := .quoted
    escaped := true }) ?_
  simp [react, advance, hreopen, setQuoted, hq, hu, hescape]

theorem reads_escaped (hd : r.machine.Dialect) (hne : r.machine.quote ≠ r.machine.escape)
    (hs : InQuotes s.state) (hq : s.quoted = true) (hu : s.unquoted = true) (c : UInt8) :
    Reads r buffer ([r.machine.escape] ++ [c]) s
      { s with
        pos := s.pos + 1 + 1
        last := .escape
        state := .quoted
        escaped := true } := by
  have hescape := hd.transition_escape hne hs
  have hfirst : Reads r buffer [r.machine.escape] s
      { s with
        pos := s.pos + 1
        last := s.state
        state := .escape
        escaped := true } := by
    refine Reads.single (t := { s with
      last := s.state
      state := .escape
      escaped := true }) ?_
    simp [react, advance, hescape]
  refine hfirst.append ?_
  refine Reads.single (t := { s with
    pos := s.pos + 1
    last := .escape
    state := .quoted
    escaped := true }) ?_
  simp [react, advance, transition, setQuoted, hq, hu]

/-- A byte of a quoted value, behind an escape character where it needs one. -/
theorem reads_escapeByte (buffer : Bytes) (hd : r.machine.Dialect) (hs : InQuotes s.state)
    (hq : s.quoted = true) (hu : s.unquoted = true) (c : UInt8) : ∃ last state, InQuotes state ∧
      Reads r buffer (escapeByte r.machine.quote r.machine.escape c) s
        { s with
          pos := s.pos + (escapeByte r.machine.quote r.machine.escape c).length
          last := last
          state := state
          escaped := s.escaped || (c = r.machine.quote || c = r.machine.escape) } := by
  by_cases hspecial : c = r.machine.quote ∨ c = r.machine.escape
  · have hany : (s.escaped || (decide (c = r.machine.quote) || decide (c = r.machine.escape))) =
        true := by
      rcases hspecial with h | h <;> simp [h]
    rw [escapeByte, if_pos hspecial, hany]
    rcases eq_or_ne r.machine.quote r.machine.escape with heq | hne
    · have hc : c = r.machine.quote := hspecial.elim id fun h => h.trans heq.symm
      rw [hc, ← heq]
      exact ⟨_, _, Or.inl rfl, reads_doubledQuote hd heq hs hq hu⟩
    · exact ⟨_, _, Or.inl rfl, reads_escaped hd hne hs hq hu c⟩
  · obtain ⟨hquote, he⟩ := not_or.mp hspecial
    obtain ⟨state, hstate, hread⟩ := reads_quoted buffer hs hq hu hquote he
    rw [escapeByte, if_neg hspecial]
    refine ⟨s.state, state, hstate, ?_⟩
    simpa [hquote, he] using hread

theorem reads_content (buffer : Bytes) (hd : r.machine.Dialect) (str : Bytes)
    (hs : InQuotes s.state) (hq : s.quoted = true) (hu : s.unquoted = true) :
    ∃ last state, InQuotes state ∧
      Reads r buffer (str.flatMap (escapeByte r.machine.quote r.machine.escape)) s
        { s with
          pos := s.pos + (str.flatMap (escapeByte r.machine.quote r.machine.escape)).length
          last := last
          state := state
          escaped := s.escaped ||
            str.any fun c => c = r.machine.quote || c = r.machine.escape } := by
  induction str generalizing s with
  | nil =>
      refine ⟨s.last, s.state, hs, ?_⟩
      simpa using Reads.nil s
  | cons c rest ih =>
      obtain ⟨last, state, hstate, hread⟩ := reads_escapeByte buffer hd hs hq hu c
      obtain ⟨last', state', hstate', hrest⟩ := ih (s := { s with
        pos := s.pos + (escapeByte r.machine.quote r.machine.escape c).length
        last := last
        state := state
        escaped := s.escaped || (c = r.machine.quote || c = r.machine.escape) }) hstate hq hu
      refine ⟨last', state', hstate', ?_⟩
      have happend := hread.append hrest
      simpa [Nat.add_assoc, Bool.or_assoc] using happend

theorem reads_field_quoted (buffer : Bytes) (hd : r.machine.Dialect) (str : Bytes)
    (hs : FieldStart s.state) (hq : s.quoted = false) (he : s.escaped = false) :
    ∃ last, Reads r buffer
      (r.machine.quote :: (str.flatMap (escapeByte r.machine.quote r.machine.escape) ++
        [r.machine.quote])) s
      { s with
        pos := s.pos + (str.flatMap (escapeByte r.machine.quote r.machine.escape)).length + 2
        last := last
        state := .unquoted
        quoted := true
        unquoted := true
        escaped := str.any fun c => c = r.machine.quote || c = r.machine.escape
        quotedPosition := s.pos } := by
  have hopen : Reads r buffer [r.machine.quote] s
      { s with
        pos := s.pos + 1
        last := s.state
        state := .quoted
        quoted := true
        unquoted := true
        quotedPosition := s.pos } := by
    have hquoted := hd.transition_openQuote hs
    have hlast : s.state ≠ .unquoted ∧ s.state ≠ .maybeQuoted := by
      rcases hs with hs | hs | hs <;> simp [hs]
    refine Reads.single (t := { s with
      last := s.state
      state := .quoted
      quoted := true
      unquoted := true
      quotedPosition := s.pos }) ?_
    simp [react, advance, hquoted, setQuoted, hq, hlast.1, hlast.2]
  obtain ⟨last, state, hstate, hcontent⟩ := reads_content buffer (r := r) hd str
    (s := { s with
      pos := s.pos + 1
      last := s.state
      state := .quoted
      quoted := true
      unquoted := true
      quotedPosition := s.pos }) (Or.inl rfl) rfl rfl
  have hlast : state ≠ .unquoted ∧ state ≠ .maybeQuoted := by
    rcases hstate with hs | hs <;> simp [hs]
  have hclosed := hd.transition_closeQuote hstate
  have hsum : s.pos + (str.flatMap (escapeByte r.machine.quote r.machine.escape)).length + 2 =
      s.pos + 1 + (str.flatMap (escapeByte r.machine.quote r.machine.escape)).length + 1 := by
    omega
  rw [hsum]
  refine ⟨state, hopen.append (hcontent.append ?_)⟩
  refine Reads.single (t := { s with
    pos := s.pos + 1 + (str.flatMap (escapeByte r.machine.quote r.machine.escape)).length
    last := state
    state := .unquoted
    quoted := true
    unquoted := true
    escaped := str.any fun c => c = r.machine.quote || c = r.machine.escape
    quotedPosition := s.pos }) ?_
  simp [react, advance, hclosed, setUnquoted, he, hlast.1, hlast.2]

/-! ## Values -/

def pushed (s : Scanner) (value : Option Bytes) : Scanner :=
  { s with
    row := s.row ++ [value]
    curColId := s.curColId + 1
    quoted := false
    escaped := false }

/-- The value of a field that ends at the position `p`, as the scanner will see it. -/
inductive Ended (r : Reader) (buffer : Bytes) (p : Nat) (s : Scanner) : Option Bytes → Prop
  | null (hq : s.quoted = false) (he : s.escaped = false)
      (htext : [slice buffer s.lastPosition (p - s.lastPosition)] = r.options.nullStr) :
      Ended r buffer p s none
  | raw {text : Bytes} (hq : s.quoted = false) (he : s.escaped = false)
      (htext : slice buffer s.lastPosition (p - s.lastPosition) = text)
      (hnull : text ∉ r.options.nullStr) (hvalid : r.isValid text = true) :
      Ended r buffer p s (some text)
  | quoted {text content : Bytes} (hq : s.quoted = true) (hu : s.unquoted = true)
      (hstart : s.quotedPosition = s.lastPosition)
      (hend : p = s.lastPosition + content.length + 2)
      (hcontent : slice buffer (s.lastPosition + 1) content.length = content)
      (hclose : buffer.getD (s.lastPosition + 1 + content.length) 0 = r.machine.quote)
      (htext : text =
        if s.escaped then removeEscape r.machine.escape r.machine.quote true false content
        else content)
      (hvalid : r.isValid text = true) : Ended r buffer p s (some text)

/-- The bytes of a delimiter do not change the value before it. -/
theorem Ended.move {p : Nat} {value : Option Bytes} (h : Ended r buffer p s value) (pos : Nat)
    (last state : CSVState) : Ended r buffer p
      { s with
        pos := pos
        last := last
        state := state } value := by
  cases h with
  | null hq he htext => exact .null hq he htext
  | raw hq he htext hnull hvalid => exact .raw hq he htext hnull hvalid
  | quoted hq hu hstart hend hcontent hclose htext hvalid =>
      exact .quoted hq hu hstart hend hcontent hclose htext hvalid

theorem handleTooManyColumnsError_inside (h : s.curColId < r.numberOfColumns) (value : Bytes) :
    r.handleTooManyColumnsError s value = (s, false) := by
  unfold handleTooManyColumnsError
  rw [if_neg fun hc => absurd hc.1 (by omega)]

/-- A null string without an escape character stands for NULL as it is. -/
theorem isNull_raw (hs : s.escaped = false) {null : Bytes} (hnull : r.options.nullStr = [null])
    (hescape : r.machine.escape ∉ null) (value : Bytes) :
    r.isNull s value = decide (null = value) := by
  unfold isNull
  have hhead : ¬(null.length = 2 ∧ null.headD 0 = r.machine.escape) := by
    rintro ⟨hlength, hhead⟩
    cases null with
    | nil => simp at hlength
    | cons b rest => exact hescape (hhead ▸ List.mem_cons_self ..)
  dsimp only
  rw [hnull, List.any_cons, List.any_nil, if_neg hhead]
  simp [hs]

/-- What the reader and the writer agree on, apart from the dialect. -/
structure Agrees (r : Reader) (null : Bytes) : Prop where
  dialect : r.machine.Dialect
  nullStr : r.options.nullStr = [null]
  nullPlain : ∀ b ∈ null, r.machine.Plain b
  nullEscape : r.machine.escape ∉ null
  quotedNulls : r.options.allowQuotedNulls = false
  newLines : r.onlyRnNewlines = false
  columns : 2 ≤ r.numberOfColumns
  resultSize : 0 < r.resultSize

namespace Ended

variable {null : Bytes} {p : Nat} {s : Scanner} {value : Option Bytes}

/-- The value of a field without quotes is the text of the field. -/
theorem addValueToVector (h : Ended r buffer p s value) (ha : Agrees r null)
    (hcolumn : s.curColId < r.numberOfColumns) (hq : s.quoted = false) :
    s.escaped = false ∧
      r.addValueToVector s (slice buffer s.lastPosition (p - s.lastPosition)) = pushed s value := by
  have hbelow : ¬r.numberOfColumns ≤ s.curColId := by omega
  have hcan : r.canBeNull s = true := by simp [canBeNull, hq]
  cases h with
  | null _ he htext =>
      refine ⟨he, ?_⟩
      have hslice : null = slice buffer s.lastPosition (p - s.lastPosition) := by
        rw [ha.nullStr] at htext
        exact (List.cons.inj htext).1.symm
      have hnull : r.isNull s null = true := by
        rw [isNull_raw he ha.nullStr ha.nullEscape]
        exact decide_eq_true rfl
      unfold Reader.addValueToVector
      rw [handleTooManyColumnsError_inside hcolumn, ← hslice]
      dsimp only
      rw [if_neg hbelow, if_pos ⟨hcan, hnull⟩]
      simp [push, pushed, hq, he]
  | @raw text _ he htext hnotNull hvalid =>
      refine ⟨he, ?_⟩
      have hnull : ¬(r.canBeNull s = true ∧ r.isNull s text = true) := by
        rw [isNull_raw he ha.nullStr ha.nullEscape]
        rintro ⟨-, heq⟩
        rw [ha.nullStr] at hnotNull
        exact hnotNull (List.mem_singleton.mpr (of_decide_eq_true heq).symm)
      unfold Reader.addValueToVector
      rw [handleTooManyColumnsError_inside hcolumn, htext]
      dsimp only
      rw [if_neg hbelow, if_neg hnull, if_neg (by simp [hvalid])]
      simp [push, pushed, hq, he]
  | quoted hquoted => simp [hq] at hquoted

theorem addValueToVector_quoted (ha : Agrees r null) (hcolumn : s.curColId < r.numberOfColumns)
    (hq : s.quoted = true) {text : Bytes} (hvalid : r.isValid text = true) :
    r.addValueToVector s text = push s (some text) := by
  have hcan : ¬(r.canBeNull s = true ∧ r.isNull s text = true) := by
    simp [canBeNull, hq, ha.quotedNulls]
  unfold Reader.addValueToVector
  rw [handleTooManyColumnsError_inside hcolumn]
  dsimp only
  rw [if_neg (by omega), if_neg hcan, if_neg (by simp [hvalid])]

/-- The closing quote ends the value; the spaces inside the quotes belong to it. -/
theorem addQuotedValue (h : Ended r buffer p s value) (ha : Agrees r null)
    (hcolumn : s.curColId < r.numberOfColumns) (hq : s.quoted = true) :
    r.addQuotedValue buffer s p = pushed s value := by
  cases h with
  | null hraw => simp [hq] at hraw
  | raw hraw => simp [hq] at hraw
  | @quoted text content _ hu hstart hend hcontent hclose htext hvalid =>
      have hlength : p - s.quotedPosition - 1 = content.length + 1 := by omega
      have htrim : r.trimSpaces buffer (s.quotedPosition + 1) (content.length + 1) =
          content.length + 1 := by
        have hspace := ha.dialect.quote_ne.2.2.2
        rw [trimSpaces, hstart, hclose, if_neg fun hc => hspace hc.2]
      have hescaped : r.addPossiblyEscapedValue s content (p < s.lastPosition + 2) =
          { push s (some text) with escaped := false } := by
        unfold addPossiblyEscapedValue
        have hempty : ¬p < s.lastPosition + 2 := by omega
        cases he : s.escaped with
        | true =>
            rw [he, if_pos rfl] at htext
            have hstrict := ha.dialect.strict
            rw [if_pos rfl, if_neg (by simp [hstrict]), handleTooManyColumnsError_inside hcolumn]
            dsimp only
            rw [hstrict, ← htext, addValueToVector_quoted ha hcolumn hq hvalid]
        | false =>
            rw [he, if_neg (by simp)] at htext
            rw [if_neg (by simp), if_neg (by simpa using hempty), ← htext,
              addValueToVector_quoted ha hcolumn hq hvalid]
      unfold Reader.addQuotedValue
      simp only [hu, Bool.not_true, if_false, Bool.false_eq_true]
      rw [if_neg (by omega), hlength, htrim]
      dsimp only
      rw [hstart, hcontent, hescaped]
      rfl

/-- `AddValue` at the last byte of the delimiter. -/
theorem addValue (h : Ended r buffer p s value) (ha : Agrees r null)
    (hcolumn : s.curColId < r.numberOfColumns) (hle : s.lastPosition ≤ p) :
    r.addValue buffer s (p + r.extraDelimiterBytes) =
      .ok { pushed s value with lastPosition := p + r.extraDelimiterBytes + 1 } := by
  unfold Reader.addValue
  rw [if_neg (by omega)]
  cases hq : s.quoted with
  | true =>
      rw [if_pos rfl, Nat.add_sub_cancel, h.addQuotedValue ha hcolumn hq]
  | false =>
      obtain ⟨he, hadded⟩ := h.addValueToVector ha hcolumn hq
      have hsize : r.handleMultiDelimiter s (p + r.extraDelimiterBytes) =
          .ok (p - s.lastPosition) := by
        unfold handleMultiDelimiter
        rw [if_neg (by omega)]
        congr 1
        omega
      rw [if_neg (by simp), hsize]
      dsimp only
      rw [he, if_neg (by simp), hadded]

/-- `AddRow` at the first byte of the newline. -/
theorem addRow (h : Ended r buffer p s value) (ha : Agrees r null)
    (hcolumn : s.curColId < r.numberOfColumns) (hle : s.lastPosition ≤ p) :
    r.addRow buffer s p =
      r.addRowInternal { pushed s value with
        lastPosition :=
          if r.machine.newLine = .carryOn ∧ s.state ≠ .recordSeparator then p + 2 else p + 1 } := by
  unfold Reader.addRow
  rw [if_pos hle]
  cases hq : s.quoted with
  | true =>
      dsimp only
      rw [if_pos rfl, h.addQuotedValue ha hcolumn hq]
      rfl
  | false =>
      obtain ⟨he, hadded⟩ := h.addValueToVector ha hcolumn hq
      dsimp only
      rw [if_neg (by simp), he, if_neg (by simp), hadded]
      rfl

end Ended

/-! ## Rows -/

/-- Inside a row: the values so far, and nothing that belongs to another row. -/
structure InRow (s : Scanner) (rows : List Row) (lineEnd : Nat) (values : Row) : Prop where
  comment : s.comment = false
  errors : s.currentErrors = []
  done : s.done = false
  rows : s.rows = rows
  lineEnd : s.lineEnd = lineEnd
  row : s.row = values
  column : s.curColId = values.length

structure AtField (s : Scanner) (rows : List Row) (lineEnd : Nat) (values : Row) : Prop
    extends InRow s rows lineEnd values where
  state : FieldStart s.state
  position : s.lastPosition = s.pos
  quoted : s.quoted = false
  escaped : s.escaped = false

/-- Behind a field whose value is `value`. -/
structure AtEnd (r : Reader) (buffer : Bytes) (s : Scanner) (rows : List Row) (lineEnd : Nat)
    (values : Row) (value : Option Bytes) : Prop extends InRow s rows lineEnd values where
  state : Raw s.state ∨ s.state = .unquoted
  position : s.lastPosition ≤ s.pos
  ended : Ended r buffer s.pos s value

theorem slice_of_drop {start : Nat} {text rest : Bytes} (h : buffer.drop start = text ++ rest) :
    slice buffer start text.length = text := by
  rw [slice, h, List.take_left]

section Fields

variable {w : CSVWriterOptions} {null : Bytes}

/-- The writer quotes every value that the reader would not take as it is. -/
def Protects (r : Reader) (w : CSVWriterOptions) : Prop :=
  ∀ b, w.requiresQuotes b = false → r.machine.Plain b

theorem plain_of_not_requires (hw : Protects r w) {str null : Bytes} {force : Bool}
    (h : (force || requiresQuotes str null w.requiresQuotes) = false) :
    str ≠ null ∧ ∀ b ∈ str, r.machine.Plain b := by
  simp only [requiresQuotes, Bool.or_eq_false_iff, decide_eq_false_iff_not] at h
  refine ⟨h.2.1, fun b hb => hw b ?_⟩
  have hany := List.any_eq_false.mp h.2.2 b hb
  simpa using hany

variable {s : Scanner} {rows : List Row} {lineEnd : Nat} {values : Row} {rest : Bytes}
  {value : Option Bytes}

theorem reads_field_raw (ha : Agrees r null) {s : Scanner} {rows : List Row} {lineEnd : Nat}
    {values : Row} (hs : AtField s rows lineEnd values) {text rest : Bytes}
    (hplain : ∀ b ∈ text, r.machine.Plain b) (hbuffer : buffer.drop s.pos = text ++ rest)
    {value : Option Bytes} (hvalue : value = none ∧ text = null ∨
      value = some text ∧ text ≠ null ∧ r.isValid text = true) :
    ∃ s', Reads r buffer text s s' ∧ AtEnd r buffer s' rows lineEnd values value ∧
      s'.pos = s.pos + text.length ∧
      (s'.state = s.state ∨ s'.state = .standard ∨ s'.state = .emptySpace) := by
  obtain ⟨last, state, hstate, hread⟩ :=
    reads_raw buffer ha.dialect text (Or.inl hs.state) hplain
  refine ⟨_, hread, ?_, rfl, hstate⟩
  have hslice : slice buffer s.lastPosition (s.pos + text.length - s.lastPosition) = text := by
    rw [hs.position, Nat.add_sub_cancel_left]
    exact slice_of_drop hbuffer
  refine ⟨⟨hs.comment, hs.errors, hs.done, hs.rows, hs.lineEnd, hs.row, hs.column⟩, ?_, ?_, ?_⟩
  · rcases hstate with hstate | hstate | hstate
    · exact Or.inl (Or.inl (hstate ▸ hs.state))
    · exact Or.inl (Or.inr (Or.inl hstate))
    · exact Or.inl (Or.inr (Or.inr hstate))
  · exact Nat.le_trans (Nat.le_of_eq hs.position) (Nat.le_add_right _ _)
  · rcases hvalue with ⟨rfl, htext⟩ | ⟨rfl, hnull, hvalid⟩
    · exact .null hs.quoted hs.escaped (by rw [ha.nullStr, hslice, htext])
    · refine .raw hs.quoted hs.escaped hslice ?_ hvalid
      rw [ha.nullStr]
      exact fun hmem => hnull (List.mem_singleton.mp hmem)

/-- A field in quotes ends with the value that was written. -/
theorem reads_field_value (ha : Agrees r null) {s : Scanner} {rows : List Row} {lineEnd : Nat}
    {values : Row} (hs : AtField s rows lineEnd values) {str rest : Bytes}
    (hvalid : r.isValid str = true)
    (hbuffer : buffer.drop s.pos = r.machine.quote ::
      (str.flatMap (escapeByte r.machine.quote r.machine.escape) ++ [r.machine.quote]) ++ rest) :
    ∃ s', Reads r buffer (r.machine.quote ::
        (str.flatMap (escapeByte r.machine.quote r.machine.escape) ++ [r.machine.quote])) s s' ∧
      AtEnd r buffer s' rows lineEnd values (some str) ∧
      s'.pos = s.pos + (r.machine.quote ::
        (str.flatMap (escapeByte r.machine.quote r.machine.escape) ++ [r.machine.quote])).length ∧
      s'.state = .unquoted := by
  obtain ⟨last, hread⟩ := reads_field_quoted buffer ha.dialect str hs.state hs.quoted
    hs.escaped
  refine ⟨_, hread, ?_, by simp; omega, rfl⟩
  refine ⟨⟨hs.comment, hs.errors, hs.done, hs.rows, hs.lineEnd, hs.row, hs.column⟩,
    Or.inr rfl, Nat.le_trans (Nat.le_of_eq hs.position) (by dsimp only; omega), ?_⟩
  generalize hcontent : str.flatMap (escapeByte r.machine.quote r.machine.escape) = content at *
  have hinside : buffer.drop (s.pos + 1) = content ++ r.machine.quote :: rest := by
    rw [← List.drop_drop, hbuffer]
    simp
  refine @Ended.quoted _ _ _ _ _ content rfl rfl hs.position.symm
    (by dsimp only; rw [hs.position]) ?_ ?_ ?_ hvalid
  · dsimp only
    rw [hs.position]
    exact slice_of_drop hinside
  · dsimp only
    rw [hs.position, List.getD_eq_getElem?_getD, ← List.getElem?_drop, hinside]
    simp
  · dsimp only
    cases hany : str.any fun c => c = r.machine.quote || c = r.machine.escape with
    | true => rw [if_pos rfl, ← hcontent, removeEscape_flatMap]
    | false => rw [if_neg (by simp), ← hcontent, flatMap_escapeByte_self hany]

theorem reads_writeValue (ha : Agrees r null) (hw : Protects r w)
    (hs : AtField s rows lineEnd values) {colIdx : Nat}
    (hvalid : ∀ str ∈ value, r.isValid str = true)
    (hbuffer : buffer.drop s.pos = writeValue r.options w colIdx value ++ rest) :
    ∃ s', Reads r buffer (writeValue r.options w colIdx value) s s' ∧
      AtEnd r buffer s' rows lineEnd values value ∧
      s'.pos = s.pos + (writeValue r.options w colIdx value).length ∧
      (s'.state = s.state ∨ s'.state = .standard ∨ s'.state = .emptySpace ∨
        s'.state = .unquoted) := by
  cases value with
  | none =>
      have htext : writeValue r.options w colIdx none = null := by simp [writeValue, ha.nullStr]
      rw [htext] at hbuffer ⊢
      obtain ⟨s', hread, hend, hpos, hstate⟩ :=
        reads_field_raw ha hs ha.nullPlain hbuffer (Or.inl ⟨rfl, rfl⟩)
      exact ⟨s', hread, hend, hpos, hstate.imp_right (Or.imp_right Or.inl)⟩
  | some str =>
      have hstr := hvalid str rfl
      cases hquoted : r.options.forceQuote.getD colIdx false ||
          requiresQuotes str (r.options.nullStr.headD []) w.requiresQuotes with
      | true =>
          have htext : writeValue r.options w colIdx (some str) = r.machine.quote ::
              (str.flatMap (escapeByte r.machine.quote r.machine.escape) ++ [r.machine.quote]) :=
            writeQuotedString_quoted ha.dialect.quote ha.dialect.escape hquoted
          rw [htext] at hbuffer ⊢
          obtain ⟨s', hread, hend, hpos, hstate⟩ := reads_field_value ha hs hstr hbuffer
          exact ⟨s', hread, hend, hpos, Or.inr (Or.inr (Or.inr hstate))⟩
      | false =>
          have htext : writeValue r.options w colIdx (some str) = str := by
            simp only [writeValue, writeQuotedString, hquoted]
            simp
          obtain ⟨hnull, hplain⟩ := plain_of_not_requires hw hquoted
          have hne : str ≠ null := by
            intro heq
            exact hnull (by simp [ha.nullStr, heq])
          rw [htext] at hbuffer ⊢
          obtain ⟨s', hread, hend, hpos, hstate⟩ :=
            reads_field_raw ha hs hplain hbuffer (Or.inr ⟨rfl, hne, hstr⟩)
          exact ⟨s', hread, hend, hpos, hstate.imp_right (Or.imp_right Or.inl)⟩

/-! ## Delimiters -/

/-- The last byte of the delimiter adds the value before it. -/
theorem reads_delimiter_last (ha : Agrees r null) {p : Nat} (hended : Ended r buffer p s value)
    (hle : s.lastPosition ≤ p) (hcolumn : s.curColId < r.numberOfColumns)
    (hpos : s.pos = p + r.extraDelimiterBytes) {b : UInt8}
    (hb : r.machine.transition s.state b = .delimiter) : Reads r buffer [b] s
      { pushed s value with
        pos := p + r.extraDelimiterBytes + 1
        last := s.state
        state := .delimiter
        lastPosition := p + r.extraDelimiterBytes + 1 } := by
  have hadd := (hended.move s.pos s.state .delimiter).addValue ha hcolumn hle
  have hreact : r.react buffer (r.advance s b) = .ok ({ pushed s value with
      last := s.state
      state := .delimiter
      lastPosition := p + r.extraDelimiterBytes + 1 }, false) := by
    simp only [react, advance, hb]
    simp only [hpos] at hadd ⊢
    rw [hadd]
    simp [pushed, hpos]
  have hread := Reads.single hreact
  simpa [pushed, hpos] using hread

theorem drop_delimiter {read : Nat} (h : read < r.machine.delimiter.length) :
    r.machine.delimiter.drop read =
      [r.machine.delimiterByte read] ++ r.machine.delimiter.drop (read + 1) := by
  rw [List.drop_eq_getElem_cons h, delimiterByte, List.getD_eq_getElem?_getD,
    List.getElem?_eq_getElem h]
  rfl

/-- The rest of a delimiter, of which `read` bytes were read. -/
theorem reads_delimiterBytes (ha : Agrees r null) (left : Nat) {read : Nat} {s : Scanner} {p : Nat}
    {value : Option Bytes} (hended : Ended r buffer p s value) (hle : s.lastPosition ≤ p)
    (hcolumn : s.curColId < r.numberOfColumns) (hpos : s.pos = p + read)
    (hleft : r.machine.delimiter.length = read + left + 1)
    (hnext : r.machine.transition s.state (r.machine.delimiterByte read) =
      if r.machine.delimiter.length = read + 1 then .delimiter
      else Dialect.insideDelimiter (read + 1)) :
    ∃ last, Reads r buffer (r.machine.delimiter.drop read) s
      { pushed s value with
        pos := p + r.machine.delimiter.length
        last := last
        state := .delimiter
        lastPosition := p + r.machine.delimiter.length } := by
  rw [drop_delimiter (by omega)]
  induction left generalizing read s with
  | zero =>
      have hlength : r.machine.delimiter.length = read + 1 := by omega
      have hextra : r.extraDelimiterBytes = read := by simp [extraDelimiterBytes, hlength]
      rw [if_pos hlength] at hnext
      have hread := reads_delimiter_last ha hended hle hcolumn (by rw [hpos, hextra]) hnext
      rw [hextra, Nat.add_assoc] at hread
      rw [List.drop_eq_nil_of_le (by omega), List.append_nil, hlength]
      exact ⟨_, hread⟩
  | succ left ih =>
      have hlt : read + 1 < r.machine.delimiter.length := by omega
      rw [if_neg (by omega)] at hnext
      have hreact : r.react buffer (r.advance s (r.machine.delimiterByte read)) =
          .ok (r.advance s (r.machine.delimiterByte read), false) := by
        unfold Dialect.insideDelimiter at hnext
        split at hnext <;> simp only [react, advance, hnext]
      have hstep := Reads.single hreact
      rw [advance, hnext] at hstep
      obtain ⟨last, hrest⟩ := ih (hended.move (s.pos + 1) s.state _) hle hcolumn
        (by dsimp only; omega) (by omega)
        (ha.dialect.transition_insideDelimiter (Nat.le_add_left 1 read) hlt)
      rw [drop_delimiter hlt]
      exact ⟨last, hstep.append hrest⟩

/-- A delimiter adds the value before it to the row. -/
theorem reads_delimiter (ha : Agrees r null) (hs : AtEnd r buffer s rows lineEnd values value)
    (hcolumn : values.length < r.numberOfColumns) :
    ∃ s', Reads r buffer r.machine.delimiter s s' ∧ AtField s' rows lineEnd (values ++ [value]) ∧
      s'.state = .delimiter ∧ s'.pos = s.pos + r.machine.delimiter.length := by
  have hlength := ha.dialect.delimiter.1
  have hfirst : r.machine.delimiterByte 0 = r.machine.delimiterFirstByte := by
    unfold delimiterByte delimiterFirstByte
    cases r.machine.delimiter <;> rfl
  have hnext : r.machine.transition s.state (r.machine.delimiterByte 0) =
      if r.machine.delimiter.length = 0 + 1 then .delimiter
      else Dialect.insideDelimiter (0 + 1) := by
    rw [hfirst, ha.dialect.transition_delimiter hs.state, ha.dialect.delimiterState_eq]
  obtain ⟨last, hread⟩ := reads_delimiterBytes ha (r.machine.delimiter.length - 1) hs.ended
    hs.position (by rw [hs.column]; exact hcolumn) rfl (by omega) hnext
  refine ⟨_, hread, ⟨⟨hs.comment, hs.errors, hs.done, hs.rows, hs.lineEnd, ?_, ?_⟩,
    Or.inr (Or.inr rfl), rfl, rfl, rfl⟩, rfl, rfl⟩
  · simp [pushed, hs.row]
  · simp [pushed, hs.column]

theorem reads_writeValues (ha : Agrees r null) (hw : Protects r w) (row : Row) {colIdx : Nat}
    (hs : AtEnd r buffer s rows lineEnd values value) (hcolIdx : colIdx ≠ 0)
    (hcolumns : values.length + row.length < r.numberOfColumns)
    (hvalid : ∀ v ∈ row, ∀ str ∈ v, r.isValid str = true)
    (hbuffer : buffer.drop s.pos = writeValues r.options w colIdx row ++ rest) :
    ∃ s' values' value', Reads r buffer (writeValues r.options w colIdx row) s s' ∧
      AtEnd r buffer s' rows lineEnd values' value' ∧
      values' ++ [value'] = values ++ [value] ++ row ∧
      s'.pos = s.pos + (writeValues r.options w colIdx row).length ∧
      (row ≠ [] → Dialect.RecordEnd s'.state) := by
  induction row generalizing s colIdx values value with
  | nil => exact ⟨s, values, value, Reads.nil s, hs, by simp, rfl, fun h => absurd rfl h⟩
  | cons next row ih =>
      have htext : writeValues r.options w colIdx (next :: row) = r.machine.delimiter ++
          (writeValue r.options w colIdx next ++ writeValues r.options w (colIdx + 1) row) := by
        rw [writeValues, if_pos hcolIdx]
        rfl
      rw [htext] at hbuffer ⊢
      rw [List.length_cons] at hcolumns
      obtain ⟨s₁, hdelimiter, hfield, hstate₁, hpos₁⟩ := reads_delimiter ha hs (by omega)
      have hbuffer₁ : buffer.drop s₁.pos = writeValue r.options w colIdx next ++
          (writeValues r.options w (colIdx + 1) row ++ rest) := by
        rw [hpos₁, ← List.drop_drop, hbuffer, List.append_assoc, List.drop_left, List.append_assoc]
      obtain ⟨s₂, hvalue, hend, hpos₂, hstate₂⟩ := reads_writeValue ha hw hfield
        (hvalid next (List.mem_cons_self ..)) hbuffer₁
      have hbuffer₂ : buffer.drop s₂.pos = writeValues r.options w (colIdx + 1) row ++ rest := by
        rw [hpos₂, ← List.drop_drop, hbuffer₁, List.drop_left]
      obtain ⟨s', values', value', hread, hend', hvalues, hpos', hstate'⟩ := ih hend
        (Nat.succ_ne_zero colIdx) (by simp; omega)
        (fun v hv => hvalid v (List.mem_cons_of_mem _ hv)) hbuffer₂
      refine ⟨s', values', value', hdelimiter.append (hvalue.append hread), hend', ?_, ?_, ?_⟩
      · rw [hvalues]
        simp
      · rw [hpos', hpos₂, hpos₁]
        simp [Nat.add_assoc]
      · intro _
        cases row with
        | nil =>
            cases hread
            rcases hstate₂ with h | h | h | h
            · exact Or.inl (h.trans hstate₁)
            · exact Or.inr (Or.inl h)
            · exact Or.inr (Or.inr (Or.inl h))
            · exact Or.inr (Or.inr (Or.inr h))
        | cons v row => exact hstate' (List.cons_ne_nil v row)

theorem reads_row (ha : Agrees r null) (hw : Protects r w) {row : Row}
    (hs : AtField s rows lineEnd []) (hcolumns : row.length = r.numberOfColumns)
    (hvalid : ∀ v ∈ row, ∀ str ∈ v, r.isValid str = true)
    (hbuffer : buffer.drop s.pos = writeValues r.options w 0 row ++ rest) :
    ∃ s' values value, Reads r buffer (writeValues r.options w 0 row) s s' ∧
      AtEnd r buffer s' rows lineEnd values value ∧ values ++ [value] = row ∧
      s'.pos = s.pos + (writeValues r.options w 0 row).length ∧ Dialect.RecordEnd s'.state := by
  have htwo := ha.columns
  cases row with
  | nil => simp at hcolumns; omega
  | cons first row =>
      have htext : writeValues r.options w 0 (first :: row) =
          writeValue r.options w 0 first ++ writeValues r.options w 1 row := by
        simp [writeValues]
      rw [htext] at hbuffer ⊢
      rw [List.length_cons] at hcolumns
      rw [List.append_assoc] at hbuffer
      obtain ⟨s₁, hvalue, hend, hpos₁, -⟩ := reads_writeValue ha hw hs
        (hvalid first (List.mem_cons_self ..)) hbuffer
      have hbuffer₁ : buffer.drop s₁.pos = writeValues r.options w 1 row ++ rest := by
        rw [hpos₁, ← List.drop_drop, hbuffer, List.drop_left]
      obtain ⟨s', values', value', hread, hend', hvalues, hpos', hstate'⟩ :=
        reads_writeValues ha hw row hend (by decide) (by simp; omega)
          (fun v hv => hvalid v (List.mem_cons_of_mem _ hv)) hbuffer₁
      refine ⟨s', values', value', hvalue.append hread, hend', by simpa using hvalues, ?_,
        hstate' ?_⟩
      · rw [hpos', hpos₁]
        simp [Nat.add_assoc]
      · rintro rfl
        simp at hcolumns
        omega

end Fields

end Reader

end Csv
end MiniDuck
