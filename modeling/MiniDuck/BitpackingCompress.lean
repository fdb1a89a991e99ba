import MiniDuck.BitpackingWriter

/-!
# The two passes of bitpacking

Analyze and compress run the same state over the same rows, once with a
writer that does nothing and once with the one that fills segments.
Compress ignores what `Flush` returns, so it relies on the first pass.

`Progress` accounts for every row of the second pass: it lies in a
segment that has been flushed, in a group of the current segment or in
the buffer. `update_ok` keeps it as long as the first pass goes on, and
`append_ok` and `finalize_ok` follow both passes to their ends.
-/

namespace MiniDuck

open IntegralType BitpackingPrimitives SegmentBuffer WrittenGroup

variable {type : IntegralType}

/-! ## The passes -/

def emptyBitpackingWriter (_ : BitpackingWrite type) (_ : Nat) (s : Unit) : Except String Unit :=
  .ok s

/-- `Update` in the first pass. Nothing is returned where the pass stops. -/
def analyzeUpdate (st : BitpackingState type) (val : Option type.Value) :
    Option (BitpackingState type) :=
  match st.update emptyBitpackingWriter () val with
  | .ok (true, st, _) => some st
  | _ => none

def bitpackingAnalyze (blockSize : Nat) (st : BitpackingState type)
    (input : List (Option type.Value)) : Option (BitpackingState type) :=
  if type.width.bytes * metadataGroupSize * 2 > blockSize then none
  else input.foldlM analyzeUpdate st

def bitpackingFinalAnalyze (st : BitpackingState type) : Option Nat :=
  match st.flush emptyBitpackingWriter () with
  | .ok (true, st, _) => some st.totalSize
  | _ => none

def analyze (blockSize : Nat) (buffer : Nat → type.Value) (mode : BitpackingMode)
    (vectors : List (List (Option type.Value))) : Option Nat :=
  (vectors.foldlM (bitpackingAnalyze blockSize) (.initial buffer mode)).bind bitpackingFinalAnalyze

structure BitpackingCompressionState (type : IntegralType) where
  state : BitpackingState type
  buffer : SegmentBuffer

namespace BitpackingCompressionState

section Model

variable (kernel : BitpackingKernel type.bits) (blockSize : Nat) (fresh : Nat → Memory UInt8)

def initial (buffer : Nat → type.Value) (mode : BitpackingMode) :
    BitpackingCompressionState type :=
  ⟨.initial buffer mode, .initial blockSize fresh⟩

/-- `Update` in the second pass, with what it returns. -/
def update (c : BitpackingCompressionState type) (val : Option type.Value) :
    Except String (Bool × BitpackingCompressionState type) :=
  (c.state.update (bitpackingWriter kernel blockSize fresh) c.buffer val).map
    fun (success, state, buffer) => (success, ⟨state, buffer⟩)

def append (c : BitpackingCompressionState type) (input : List (Option type.Value)) :
    Except String (BitpackingCompressionState type) :=
  input.foldlM (fun c val => (c.update kernel blockSize fresh val).map Prod.snd) c

def flush (c : BitpackingCompressionState type) :
    Except String (Bool × BitpackingCompressionState type) :=
  (c.state.flush (bitpackingWriter kernel blockSize fresh) c.buffer).map
    fun (success, state, buffer) => (success, ⟨state, buffer⟩)

def finalize (c : BitpackingCompressionState type) : Except String (List BitpackingSegment) := do
  let (_, c) ← c.flush kernel blockSize fresh
  let buffer ← c.buffer.flushSegment blockSize
  .ok buffer.segments

end Model

end BitpackingCompressionState

open BitpackingCompressionState

def compress (kernel : BitpackingKernel type.bits) (blockSize : Nat) (fresh : Nat → Memory UInt8)
    (buffer : Nat → type.Value) (mode : BitpackingMode)
    (vectors : List (List (Option type.Value))) : Except String (List BitpackingSegment) := do
  let c ← vectors.foldlM (append kernel blockSize fresh) (initial blockSize fresh buffer mode)
  c.finalize kernel blockSize fresh

/-! ## Accounting for the rows -/

def groupRows (groups : List (WrittenGroup type)) : List (Option type.Value) :=
  groups.flatMap fun g => g.rows

def FullGroup (g : WrittenGroup type) : Prop :=
  g.call.Encodes g.rows ∧ g.rows.length = metadataGroupSize

/-- Where the rows of the second pass are. -/
structure Progress (kernel : BitpackingKernel type.bits) (blockSize : Nat) (mode : BitpackingMode)
    (c : BitpackingCompressionState type) (done : List (List (WrittenGroup type)))
    (current : List (WrittenGroup type)) (pending : List (Option type.Value)) : Prop where
  segments : List.Forall₂ (SegmentHolds kernel) c.buffer.segments done
  layout : Layout kernel blockSize c.buffer current
  state : c.state.StateInv pending mode
  short : pending.length < metadataGroupSize
  full : ∀ g ∈ done.flatten ++ current, FullGroup g

variable {kernel : BitpackingKernel type.bits} {blockSize : Nat} {fresh : Nat → Memory UInt8}
  {mode : BitpackingMode} {c : BitpackingCompressionState type}
  {done : List (List (WrittenGroup type))} {current : List (WrittenGroup type)}
  {pending : List (Option type.Value)} {st : BitpackingState type}

theorem initial_progress (h : 16 ≤ blockSize) (buffer : Nat → type.Value) :
    Progress kernel blockSize mode (initial blockSize fresh buffer mode) [] [] [] :=
  ⟨.nil, createEmptySegment_layout h _, BitpackingState.reset_inv rfl, Nat.zero_lt_succ _,
    fun _ hg => absurd hg List.not_mem_nil⟩

theorem flush_choose (h : st.compressionBufferIdx ≠ 0) {after : BitpackingState type}
    (hflush : st.flush emptyBitpackingWriter () = .ok (true, after, ())) :
    st.choose.isSome ∧ after.mode = st.mode := by
  obtain ⟨after', hmode, hnone, hsome⟩ := BitpackingState.flush_calls emptyBitpackingWriter () h
  cases hchoose : st.choose with
  | none =>
      rw [hnone hchoose] at hflush
      cases hflush
  | some w =>
      rw [hsome w hchoose] at hflush
      cases hflush
      exact ⟨rfl, hmode⟩

variable {rows : List (Option type.Value)}

/-- A flush of the second pass writes the pending rows as a group. -/
theorem flush_ok (h : Progress kernel blockSize mode c done current pending)
    (hblock : blockSize ≤ 2 ^ 24) (hadmits : AdmitsGroup type blockSize)
    {state : BitpackingState type} (hstate : state.StateInv rows mode) (hrows : rows ≠ [])
    (hcount : rows.length ≤ metadataGroupSize) (hchoose : state.choose.isSome) :
    ∃ g : WrittenGroup type, g.rows = rows ∧ g.call.Encodes g.rows ∧ ∃ after buffer done' current',
      state.flush (bitpackingWriter kernel blockSize fresh) c.buffer = .ok (true, after, buffer) ∧
      after.mode = mode ∧ List.Forall₂ (SegmentHolds kernel) buffer.segments done' ∧
      Layout kernel blockSize buffer (current' ++ [g]) ∧
      done'.flatten ++ current' = done.flatten ++ current := by
  have hidx : state.compressionBufferIdx ≠ 0 := by
    rw [hstate.idx]
    exact fun h0 => hrows (List.length_eq_zero_iff.mp h0)
  obtain ⟨w, hw⟩ := Option.isSome_iff_exists.mp hchoose
  obtain ⟨after, hmode, -, hcall⟩ :=
    BitpackingState.flush_calls (bitpackingWriter kernel blockSize fresh) c.buffer hidx
  have hencodes := BitpackingState.choose_encodes hstate hw
  have hflush := hcall w hw
  rw [hstate.idx] at hflush
  obtain ⟨buffer, hwrite, hcases⟩ :
      ∃ buffer, bitpackingWriter kernel blockSize fresh w rows.length c.buffer = .ok buffer ∧ _ :=
    write_ok (g := ⟨rows, w⟩) h.layout hblock hadmits hencodes.width hcount
  rw [hwrite] at hflush
  refine ⟨⟨rows, w⟩, rfl, hencodes, after, buffer, ?_⟩
  rcases hcases with ⟨hsegs, hlayout⟩ | ⟨segment, hholds, hsegs, hlayout⟩
  · refine ⟨done, current, hflush, hmode.trans hstate.mode, ?_, hlayout, rfl⟩
    rw [hsegs]
    exact h.segments
  · refine ⟨done ++ [current], [], hflush, hmode.trans hstate.mode, ?_, hlayout, by simp⟩
    rw [hsegs]
    exact List.rel_append h.segments (.cons hholds .nil)

variable {st' : BitpackingState type}

/-- The first pass stores a row, and flushes a full group that can be written. -/
theorem analyzeUpdate_cases (hst : st.StateInv pending mode) {val : Option type.Value}
    (h : analyzeUpdate st val = some st') :
    ((pending ++ [val]).length = metadataGroupSize ∧ (st.push val).choose.isSome ∧
        st'.StateInv [] mode) ∨
      ((pending ++ [val]).length ≠ metadataGroupSize ∧ st' = st.push val) := by
  have hpush := BitpackingState.push_inv hst val
  rw [analyzeUpdate, BitpackingState.update] at h
  simp only [hpush.idx] at h
  by_cases hfull : (pending ++ [val]).length = metadataGroupSize
  · rw [if_pos hfull] at h
    have hidx : (st.push val).compressionBufferIdx ≠ 0 := by
      rw [hpush.idx, List.length_append]
      exact Nat.succ_ne_zero _
    obtain ⟨after, hflush, rfl⟩ : ∃ after, (st.push val).flush emptyBitpackingWriter () =
        .ok (true, after, ()) ∧ after.reset = st' := by
      cases hresult : (st.push val).flush emptyBitpackingWriter () with
      | error e =>
          rw [hresult] at h
          cases h
      | ok result =>
          obtain ⟨success, after, u⟩ := result
          rw [hresult] at h
          cases success with
          | false => cases h
          | true => exact ⟨after, rfl, Option.some.inj h⟩
    obtain ⟨hchoose, hmode⟩ := flush_choose hidx hflush
    exact Or.inl ⟨hfull, hchoose, BitpackingState.reset_inv (hmode.trans hpush.mode)⟩
  · rw [if_neg hfull] at h
    exact Or.inr ⟨hfull, (Option.some.inj h).symm⟩

theorem update_ok (h : Progress kernel blockSize mode c done current pending)
    (hblock : blockSize ≤ 2 ^ 24) (hadmits : AdmitsGroup type blockSize)
    (hst : st.StateInv pending mode) {val : Option type.Value}
    (hanalyze : analyzeUpdate st val = some st') :
    ∃ c' done' current' pending', c.update kernel blockSize fresh val = .ok (true, c') ∧
      Progress kernel blockSize mode c' done' current' pending' ∧ st'.StateInv pending' mode ∧
      groupRows (done'.flatten ++ current') ++ pending' =
        groupRows (done.flatten ++ current) ++ pending ++ [val] := by
  have hpush := BitpackingState.push_inv hst val
  have hpush' := BitpackingState.push_inv h.state val
  have hshort := h.short
  have hlen : (pending ++ [val]).length = pending.length + 1 := by simp
  rw [BitpackingCompressionState.update, BitpackingState.update]
  simp only [hpush'.idx]
  rcases analyzeUpdate_cases hst hanalyze with ⟨hfull, hchoose, hreset⟩ | ⟨hnot, rfl⟩
  · rw [if_pos hfull]
    have hne : pending ++ [val] ≠ [] := by simp
    rw [BitpackingState.choose_isSome hpush hpush' rfl] at hchoose
    obtain ⟨g, hg, hencodes, after', buffer, done', current', hflush', hmode', hsegs, hlayout,
      hgroups⟩ := flush_ok h hblock hadmits hpush' hne (Nat.le_of_eq hfull) hchoose
    rw [hflush']
    refine ⟨_, done', current' ++ [g], [], rfl, ⟨hsegs, hlayout,
      BitpackingState.reset_inv hmode', Nat.zero_lt_succ _, ?_⟩, hreset, ?_⟩
    · intro g' hg'
      rw [← List.append_assoc, hgroups, List.mem_append] at hg'
      rcases hg' with hg' | hg'
      · exact h.full g' hg'
      · obtain rfl := List.mem_singleton.mp hg'
        exact ⟨hencodes, hg ▸ hfull⟩
    · rw [← List.append_assoc, hgroups]
      simp [groupRows, hg]
  · rw [if_neg hnot]
    refine ⟨_, done, current, pending ++ [val], rfl,
      ⟨h.segments, h.layout, hpush', by omega, h.full⟩, hpush, ?_⟩
    rw [List.append_assoc]

def BothPasses (kernel : BitpackingKernel type.bits) (blockSize : Nat) (mode : BitpackingMode)
    (st : BitpackingState type) (c : BitpackingCompressionState type)
    (rows : List (Option type.Value)) : Prop :=
  ∃ done current pending, Progress kernel blockSize mode c done current pending ∧
    st.StateInv pending mode ∧ groupRows (done.flatten ++ current) ++ pending = rows

theorem append_ok (hblock : blockSize ≤ 2 ^ 24) {input : List (Option type.Value)}
    (hadmits : input ≠ [] → AdmitsGroup type blockSize)
    (h : BothPasses kernel blockSize mode st c rows)
    (hanalyze : input.foldlM analyzeUpdate st = some st') :
    ∃ c', c.append kernel blockSize fresh input = .ok c' ∧
      BothPasses kernel blockSize mode st' c' (rows ++ input) := by
  induction input generalizing st c rows with
  | nil =>
      obtain rfl : st = st' := Option.some.inj hanalyze
      exact ⟨c, rfl, by rwa [List.append_nil]⟩
  | cons val input ih =>
      have hadmits' := hadmits (List.cons_ne_nil _ _)
      obtain ⟨st₁, hval, hrest⟩ := Option.bind_eq_some_iff.mp hanalyze
      obtain ⟨done, current, pending, hprogress, hst, hrows⟩ := h
      obtain ⟨c₁, done', current', pending', hupdate, hprogress', hst', hrows'⟩ :
          ∃ c' done' current' pending', c.update kernel blockSize fresh val = .ok (true, c') ∧ _ :=
        update_ok hprogress hblock hadmits' hst hval
      obtain ⟨c', happend, hpasses⟩ :=
        ih (fun _ => hadmits') ⟨done', current', pending', hprogress', hst', rfl⟩ hrest
      refine ⟨c', ?_, ?_⟩
      · rw [append, List.foldlM_cons, hupdate]
        exact happend
      · rw [hrows', hrows, List.append_assoc] at hpasses
        exact hpasses

/-! ## The end of the passes -/

/-- The groups of one segment: all but the last are full. -/
structure SegmentGroups (groups : List (WrittenGroup type)) : Prop where
  encodes : ∀ g ∈ groups, g.call.Encodes g.rows
  count : ∀ g ∈ groups, 0 < g.rows.length ∧ g.rows.length ≤ metadataGroupSize
  full : ∀ g ∈ groups.dropLast, g.rows.length = metadataGroupSize

theorem segmentGroups_of_full {groups : List (WrittenGroup type)}
    (h : ∀ g ∈ groups, FullGroup g) : SegmentGroups groups := by
  refine ⟨fun g hg => (h g hg).1, fun g hg => ?_, fun g hg => (h g (List.mem_of_mem_dropLast hg)).2⟩
  rw [(h g hg).2]
  exact ⟨by decide, Nat.le_refl _⟩

theorem segmentGroups_concat {groups : List (WrittenGroup type)} {g : WrittenGroup type}
    (h : ∀ g ∈ groups, FullGroup g) (hg : g.call.Encodes g.rows)
    (hcount : 0 < g.rows.length ∧ g.rows.length ≤ metadataGroupSize) :
    SegmentGroups (groups ++ [g]) := by
  have hfull := segmentGroups_of_full h
  refine ⟨fun g' hg' => ?_, fun g' hg' => ?_, fun g' hg' => ?_⟩
  · rcases List.mem_append.mp hg' with hg' | hg'
    · exact hfull.encodes g' hg'
    · exact List.mem_singleton.mp hg' ▸ hg
  · rcases List.mem_append.mp hg' with hg' | hg'
    · exact hfull.count g' hg'
    · exact List.mem_singleton.mp hg' ▸ hcount
  · rw [List.dropLast_concat] at hg'
    exact (h g' hg').2

structure SegmentsHold (kernel : BitpackingKernel type.bits) (segments : List BitpackingSegment)
    (parts : List (List (WrittenGroup type))) (rows : List (Option type.Value)) : Prop where
  segments : List.Forall₂ (SegmentHolds kernel) segments parts
  groups : ∀ groups ∈ parts, SegmentGroups groups
  rows : groupRows parts.flatten = rows

theorem finalAnalyze_choose {size : Nat} (h : bitpackingFinalAnalyze st = some size)
    (hidx : st.compressionBufferIdx ≠ 0) : st.choose.isSome := by
  rw [bitpackingFinalAnalyze] at h
  cases hresult : st.flush emptyBitpackingWriter () with
  | error e =>
      rw [hresult] at h
      cases h
  | ok result =>
      obtain ⟨success, after, u⟩ := result
      rw [hresult] at h
      cases success with
      | false => cases h
      | true => exact (flush_choose hidx hresult).1

theorem finalize_ok (hblock : blockSize ≤ 2 ^ 24) {size : Nat}
    (hadmits : rows ≠ [] → AdmitsGroup type blockSize)
    (h : BothPasses kernel blockSize mode st c rows)
    (hanalyze : bitpackingFinalAnalyze st = some size) :
    (∃ c', c.flush kernel blockSize fresh = .ok (true, c')) ∧
      ∃ segments parts, c.finalize kernel blockSize fresh = .ok segments ∧
        SegmentsHold kernel segments parts rows := by
  obtain ⟨done, current, pending, hprogress, hst, hrows⟩ := h
  have hdone : ∀ groups ∈ done, SegmentGroups groups := fun groups hgroups =>
    segmentGroups_of_full fun g hg =>
      hprogress.full g (List.mem_append_left _ (List.mem_flatten_of_mem hgroups hg))
  by_cases hpending : pending = []
  · have hidx : c.state.compressionBufferIdx = 0 := by rw [hprogress.state.idx, hpending]; rfl
    have hflush : c.flush kernel blockSize fresh = .ok (true, c) := by
      rw [BitpackingCompressionState.flush, BitpackingState.flush_empty _ _ hidx]
      rfl
    obtain ⟨segment, hholds, hsegment⟩ := flushSegment_ok hprogress.layout hblock
    refine ⟨⟨c, hflush⟩, c.buffer.segments ++ [segment], done ++ [current], ?_, ?_, ?_, ?_⟩
    · rw [finalize, hflush]
      simp only [bind, Except.bind]
      rw [hsegment]
    · exact List.rel_append hprogress.segments (.cons hholds .nil)
    · intro groups hgroups
      rcases List.mem_append.mp hgroups with hgroups | hgroups
      · exact hdone groups hgroups
      · obtain rfl := List.mem_singleton.mp hgroups
        exact segmentGroups_of_full fun g hg => hprogress.full g (List.mem_append_right _ hg)
    · rw [← hrows, hpending]
      simp
  · have hrows' : rows ≠ [] := by
      rw [← hrows]
      simp [hpending]
    have hchoose := finalAnalyze_choose hanalyze (by
      rw [hst.idx]
      exact fun h0 => hpending (List.length_eq_zero_iff.mp h0))
    rw [BitpackingState.choose_isSome hst hprogress.state rfl] at hchoose
    obtain ⟨g, hg, hencodes, after, buffer, done', current', hflush, -, hsegs, hlayout, hgroups⟩ :
        ∃ g : WrittenGroup type, g.rows = pending ∧ g.call.Encodes g.rows ∧
          ∃ after buffer done' current', c.state.flush
            (bitpackingWriter kernel blockSize fresh) c.buffer = .ok (true, after, buffer) ∧ _ :=
      flush_ok hprogress hblock (hadmits hrows') hprogress.state hpending
        (Nat.le_of_lt hprogress.short) hchoose
    have hflush' : c.flush kernel blockSize fresh = .ok (true, ⟨after, buffer⟩) := by
      rw [BitpackingCompressionState.flush, hflush]
      rfl
    obtain ⟨segment, hholds, hsegment⟩ := flushSegment_ok hlayout hblock
    have hfull : ∀ g ∈ done'.flatten ++ current', FullGroup g := hgroups ▸ hprogress.full
    refine ⟨⟨_, hflush'⟩, buffer.segments ++ [segment], done' ++ [current' ++ [g]], ?_, ?_, ?_, ?_⟩
    · rw [finalize, hflush']
      simp only [bind, Except.bind]
      rw [hsegment]
    · exact List.rel_append hsegs (.cons hholds .nil)
    · intro groups hmem
      rcases List.mem_append.mp hmem with hmem | hmem
      · exact segmentGroups_of_full fun g hg =>
          hfull g (List.mem_append_left _ (List.mem_flatten_of_mem hmem hg))
      · obtain rfl := List.mem_singleton.mp hmem
        refine segmentGroups_concat (fun g hg => hfull g (List.mem_append_right _ hg)) hencodes ?_
        rw [hg]
        exact ⟨List.length_pos_iff.mpr hpending, Nat.le_of_lt hprogress.short⟩
    · rw [← hrows, ← hgroups]
      simp [groupRows, hg]

end MiniDuck
