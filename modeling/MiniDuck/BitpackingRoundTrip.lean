import MiniDuck.BitpackingCalls
import MiniDuck.HugeIntPacker

/-!
# Bitpacking round trip

The second pass follows the first one over all vectors, and each segment
that it leaves behind is one of its groups (`SegmentsHold.forall₂`).
`bitpacking_round_trip` says that any calls on such a segment return the
rows that went into it.

The second pass ignores whether a flush has written anything. By
`bitpacking_keeps_groups` no flush fails once the first pass has
succeeded, and no group is lost on the way to its segment.
-/

namespace MiniDuck

open IntegralType BitpackingPrimitives SegmentBuffer WrittenGroup BitpackingScanState

variable {type : IntegralType} {kernel : BitpackingKernel type.bits}
  {groups : List (WrittenGroup type)} {segment : BitpackingSegment}

/-! ## What a segment gives back -/

/-- The segment reads as these rows, wherever it is loaded to. -/
def SegmentReads (kernel : BitpackingKernel type.bits) (segment : BitpackingSegment)
    (rows : List (Option type.Value)) : Prop :=
  segment.count = rows.length ∧
  ∀ (address size : Nat) (data : Memory UInt8), 4 ∣ address → segment.segmentSize ≤ size →
    (∀ i < segment.segmentSize, data i = segment.data i) →
    ∃ s : BitpackingScanState type, new address data size segment.count = .ok s ∧
      (∀ calls : List ScanCall, (calls.map ScanCall.rows).sum ≤ rows.length →
        ∃ results, runCalls kernel calls s = .ok results ∧ ReadsRows rows 0 calls results) ∧
      ∀ row v, rows[row]? = some (some v) → s.fetchRow kernel row = .ok v

/-- The segment loads as these groups, wherever it is loaded to. -/
def SegmentLoads (kernel : BitpackingKernel type.bits) (segment : BitpackingSegment)
    (groups : List (WrittenGroup type)) : Prop :=
  ∀ (address size : Nat) (data : Memory UInt8), 4 ∣ address → segment.segmentSize ≤ size →
    (∀ i < segment.segmentSize, data i = segment.data i) →
    ∃ s : BitpackingScanState type, new address data size segment.count = .ok s ∧
      ∀ i g, groups[i]? = some g →
        ∃ cur, s.loadGroup i = .ok cur ∧ cur.Holds kernel g i ∧ cur.offset = 0

theorem length_groupRows (groups : List (WrittenGroup type)) :
    (groupRows groups).length = rowCount groups := by
  rw [groupRows, rowCount, List.length_flatMap]

theorem segmentReads_of_holds (h : SegmentHolds kernel segment groups)
    (hgroups : SegmentGroups groups) : SegmentReads kernel segment (groupRows groups) := by
  rw [SegmentReads, length_groupRows]
  refine ⟨h.count, fun address size data haddress hsize hdata => ?_⟩
  have hloaded := h.congr hdata
  obtain ⟨s, hnew, hopened, hinitial⟩ := new_ok hloaded hgroups haddress hsize
  have hready : Ready kernel { segment with data := data } groups address s 0 :=
    ⟨hloaded, hgroups, haddress, hopened, by rw [hinitial]; rfl⟩
  refine ⟨s, hnew, fun calls hfit => runCalls_ok hready (by omega), fun row v hv => ?_⟩
  have hrow : row < rowCount groups := by
    rw [← length_groupRows]
    exact (List.getElem?_eq_some_iff.mp hv).1
  rw [fetchRow_ok hready hinitial hrow, storedValue_rows hgroups hv, ofBits_toBits]

theorem segmentLoads_of_holds (h : SegmentHolds kernel segment groups)
    (hgroups : SegmentGroups groups) : SegmentLoads kernel segment groups := by
  intro address size data haddress hsize hdata
  have hloaded := h.congr hdata
  obtain ⟨s, hnew, hopened, -⟩ := new_ok hloaded hgroups haddress hsize
  exact ⟨s, hnew, fun i g hg => loadGroup_ok hloaded hgroups haddress hopened hg⟩

/-! ## The two passes -/

variable {mode : BitpackingMode} {blockSize : Nat} {fresh : Nat → Memory UInt8}

theorem foldlM_analyze {st st' : BitpackingState type}
    {vectors : List (List (Option type.Value))}
    (h : vectors.foldlM (bitpackingAnalyze blockSize) st = some st') :
    vectors.flatten.foldlM analyzeUpdate st = some st' ∧
      (vectors ≠ [] → AdmitsGroup type blockSize) := by
  induction vectors generalizing st with
  | nil => exact ⟨h, fun hne => absurd rfl hne⟩
  | cons input vectors ih =>
      obtain ⟨st₁, hinput, hrest⟩ := Option.bind_eq_some_iff.mp h
      rw [bitpackingAnalyze] at hinput
      split at hinput
      · cases hinput
      · rename_i hsize
        refine ⟨?_, fun _ => admitsGroup_of_analyze (Nat.not_lt.mp hsize)⟩
        rw [List.flatten_cons, List.foldlM_append, hinput]
        exact (ih hrest).1

theorem foldlM_append_vectors {c : BitpackingCompressionState type}
    (vectors : List (List (Option type.Value))) :
    vectors.foldlM (BitpackingCompressionState.append kernel blockSize fresh) c =
      c.append kernel blockSize fresh vectors.flatten := by
  induction vectors generalizing c with
  | nil => rfl
  | cons input vectors ih =>
      rw [List.foldlM_cons, List.flatten_cons]
      exact (bind_congr fun c' => ih).trans List.foldlM_append.symm

theorem groupRows_flatten (parts : List (List (WrittenGroup type))) :
    groupRows parts.flatten = (parts.map groupRows).flatten := by
  induction parts with
  | nil => rfl
  | cons groups parts ih =>
      rw [List.flatten_cons, List.map_cons, List.flatten_cons, ← ih, groupRows, groupRows, groupRows,
        List.flatMap_append]

theorem SegmentsHold.forall₂ {segments : List BitpackingSegment}
    {parts : List (List (WrittenGroup type))} {rows : List (Option type.Value)}
    (h : SegmentsHold kernel segments parts rows)
    {R : BitpackingSegment → List (WrittenGroup type) → Prop}
    (hR : ∀ segment groups, SegmentHolds kernel segment groups → SegmentGroups groups →
      R segment groups) : List.Forall₂ R segments parts := by
  have hgroups := h.groups
  have hsegments := h.segments
  clear h
  induction hsegments with
  | nil => exact .nil
  | cons hhead _ ih =>
      exact .cons (hR _ _ hhead (hgroups _ List.mem_cons_self))
        (ih fun groups hmem => hgroups groups (List.mem_cons_of_mem _ hmem))

theorem initial_bothPasses (h : 16 ≤ blockSize) (buffer buffer' : Nat → type.Value) :
    BothPasses kernel blockSize mode (.initial buffer mode)
      (.initial blockSize fresh buffer' mode) [] :=
  ⟨[], [], [], initial_progress h buffer', BitpackingState.reset_inv rfl, rfl⟩

/-- Packing of 8 to 64 bits comes from a library. -/
structure FastPForLib where
  kernel8 : BitpackingKernel 8
  kernel16 : BitpackingKernel 16
  kernel32 : BitpackingKernel 32
  kernel64 : BitpackingKernel 64

/-- Values of a width as one number, the first of them lowest. -/
def streamNumber {n : Nat} (width : Nat) : List (BitVec n) → Nat
  | [] => 0
  | v :: values => v.toNat % 2 ^ width + 2 ^ width * streamNumber width values

def streamValues (n width : Nat) : Nat → Nat → List (BitVec n)
  | 0, _ => []
  | count + 1, number =>
      BitVec.ofNat n (number % 2 ^ width) :: streamValues n width count (number / 2 ^ width)

theorem streamNumber_lt {n : Nat} (width : Nat) (values : List (BitVec n)) :
    streamNumber width values < 2 ^ (width * values.length) := by
  induction values with
  | nil => exact Nat.one_pos
  | cons v values ih =>
      have hv := Nat.mod_lt v.toNat (Nat.two_pow_pos width)
      calc streamNumber width (v :: values)
        _ < 2 ^ width + 2 ^ width * streamNumber width values := by rw [streamNumber]; omega
        _ = 2 ^ width * (streamNumber width values + 1) := by ring
        _ ≤ 2 ^ width * 2 ^ (width * values.length) := Nat.mul_le_mul_left _ ih
        _ = 2 ^ (width * (v :: values).length) := by
            rw [← Nat.pow_add, List.length_cons, Nat.mul_succ, Nat.add_comm]

theorem streamValues_streamNumber {n : Nat} (width : Nat) (values : List (BitVec n)) :
    streamValues n width values.length (streamNumber width values) =
      values.map (lowBits width) := by
  induction values with
  | nil => rfl
  | cons v values ih =>
      have hlow : streamNumber width (v :: values) % 2 ^ width = v.toNat % 2 ^ width := by
        rw [streamNumber, Nat.add_mul_mod_self_left, Nat.mod_mod]
      have hhigh : streamNumber width (v :: values) / 2 ^ width = streamNumber width values := by
        rw [streamNumber, Nat.add_mul_div_left _ _ (Nat.two_pow_pos width),
          Nat.div_eq_of_lt (Nat.mod_lt _ (Nat.two_pow_pos width)), Nat.zero_add]
      rw [List.length_cons, streamValues, hlow, hhigh, ih]
      rfl

def bitStreamKernel (n : Nat) : BitpackingKernel n where
  fastpack width values := storeBytes (4 * width) (streamNumber width values)
  fastunpack width bytes := streamValues n width 32 (loadWord bytes)
  length_fastpack := fun _ _ => length_storeBytes ..
  fastunpack_fastpack := by
    intro width values _ hlen
    have hlt := streamNumber_lt width values
    have hpow : (256 : Nat) ^ (4 * width) = 2 ^ (width * 32) := by
      rw [(by norm_num : (256 : Nat) = 2 ^ 8), ← Nat.pow_mul]
      congr 1
      omega
    rw [hlen, ← hpow] at hlt
    rw [loadWord_storeBytes, Nat.mod_eq_of_lt hlt, ← hlen]
    exact streamValues_streamNumber width values

def FastPForLib.bitStream : FastPForLib where
  kernel8 := bitStreamKernel 8
  kernel16 := bitStreamKernel 16
  kernel32 := bitStreamKernel 32
  kernel64 := bitStreamKernel 64

/-- The kernel that `PackGroup` and `UnPackGroup` use for a type. -/
def packKernel (lib : FastPForLib) (words : HugeIntPacker.Words) :
    (type : IntegralType) → BitpackingKernel type.bits
  | ⟨_, .w8⟩ => lib.kernel8
  | ⟨_, .w16⟩ => lib.kernel16
  | ⟨_, .w32⟩ => lib.kernel32
  | ⟨_, .w64⟩ => lib.kernel64
  | ⟨_, .w128⟩ => hugeIntPacker words

/-- What has been analyzed is compressed, and every segment gives back its rows. -/
theorem bitpacking_round_trip (lib : FastPForLib) (words : HugeIntPacker.Words)
    (type : IntegralType) (mode : BitpackingMode) {blockSize : Nat}
    (hblock : 16 ≤ blockSize ∧ blockSize ≤ 2 ^ 24) (fresh : Nat → Memory UInt8)
    (buffer buffer' : Nat → type.Value) {vectors : List (List (Option type.Value))} {size : Nat}
    (hanalyze : analyze blockSize buffer mode vectors = some size) :
    ∃ segments parts,
      compress (packKernel lib words type) blockSize fresh buffer' mode vectors = .ok segments ∧
      parts.flatten = vectors.flatten ∧
      List.Forall₂ (SegmentReads (packKernel lib words type)) segments parts := by
  obtain ⟨st, hfold, hfinal⟩ := Option.bind_eq_some_iff.mp hanalyze
  obtain ⟨hrows, hadmits⟩ := foldlM_analyze hfold
  have hadmits' : vectors.flatten ≠ [] → AdmitsGroup type blockSize := fun hne =>
    hadmits fun hnil => hne (by rw [hnil]; rfl)
  obtain ⟨c, happend, hpasses⟩ :
      ∃ c, (BitpackingCompressionState.initial blockSize fresh buffer' mode).append
        (packKernel lib words type) blockSize fresh vectors.flatten = .ok c ∧ _ :=
    append_ok hblock.2 hadmits' (initial_bothPasses hblock.1 buffer buffer') hrows
  rw [List.nil_append] at hpasses
  obtain ⟨-, segments, parts, hfinalize, hholds⟩ := finalize_ok hblock.2 hadmits' hpasses hfinal
  refine ⟨segments, parts.map groupRows, ?_, ?_, ?_⟩
  · rw [compress, foldlM_append_vectors, happend]
    exact hfinalize
  · rw [← hholds.rows, groupRows_flatten]
  · rw [List.forall₂_map_right_iff]
    exact hholds.forall₂ fun segment groups => segmentReads_of_holds

def byteVectors : List (List (Option (IntegralType.Value ⟨false, .w8⟩))) :=
  [[some ⟨5, by decide⟩, none], [some ⟨255, by decide⟩]]

theorem bitpacking_round_trip_bytes :
    analyze 65536 (fun _ => ⊥) .auto byteVectors = some 41 ∧ ∃ segments parts,
      compress (packKernel .bitStream (fun _ => 0) ⟨false, .w8⟩) 65536 (fun _ _ => 170)
        (fun _ => ⊤) .auto byteVectors = .ok segments ∧
      parts.flatten = byteVectors.flatten ∧
      List.Forall₂ (SegmentReads (packKernel .bitStream (fun _ => 0) ⟨false, .w8⟩)) segments
        parts :=
  have h : analyze 65536 (fun _ => ⊥) .auto byteVectors = some 41 := by decide +kernel
  ⟨h, bitpacking_round_trip .bitStream (fun _ => 0) ⟨false, .w8⟩ .auto (by decide) _ _ _ h⟩

/-! ## What the second pass relies on -/

section Flush

variable {c c' : BitpackingCompressionState type} {st st' : BitpackingState type}
  {pending : List (Option type.Value)} {success : Bool}

/-- A flush can only fail to write where nothing can be chosen. -/
theorem flush_success {state after : BitpackingState type} {buffer buffer' : SegmentBuffer}
    (hidx : state.compressionBufferIdx ≠ 0) (hchoose : state.choose.isSome)
    (hflush : state.flush (bitpackingWriter kernel blockSize fresh) buffer =
      .ok (success, after, buffer')) : success = true ∧ after.mode = state.mode := by
  obtain ⟨w, hw⟩ := Option.isSome_iff_exists.mp hchoose
  obtain ⟨after', hmode, -, hcall⟩ :=
    BitpackingState.flush_calls (bitpackingWriter kernel blockSize fresh) buffer hidx
  rw [hcall w hw] at hflush
  cases hwrite : bitpackingWriter kernel blockSize fresh w state.compressionBufferIdx buffer with
  | error e =>
      rw [hwrite] at hflush
      cases hflush
  | ok written =>
      rw [hwrite] at hflush
      cases hflush
      exact ⟨rfl, hmode⟩

def SameRows (mode : BitpackingMode) (st : BitpackingState type)
    (c : BitpackingCompressionState type) : Prop :=
  ∃ pending, st.StateInv pending mode ∧ c.state.StateInv pending mode

theorem update_success (h : SameRows mode st c) {val : Option type.Value}
    (hanalyze : analyzeUpdate st val = some st')
    (hupdate : c.update kernel blockSize fresh val = .ok (success, c')) :
    success = true ∧ SameRows mode st' c' := by
  obtain ⟨pending, hst, hc⟩ := h
  have hpush := BitpackingState.push_inv hst val
  have hpush' := BitpackingState.push_inv hc val
  rw [BitpackingCompressionState.update, BitpackingState.update] at hupdate
  simp only [hpush'.idx] at hupdate
  rcases analyzeUpdate_cases hst hanalyze with ⟨hfull, hchoose, hreset⟩ | ⟨hnot, rfl⟩
  · rw [if_pos hfull] at hupdate
    rw [BitpackingState.choose_isSome hpush hpush' rfl] at hchoose
    have hidx : (c.state.push val).compressionBufferIdx ≠ 0 := by
      rw [hpush'.idx, List.length_append]
      exact Nat.succ_ne_zero _
    cases hresult : (c.state.push val).flush (bitpackingWriter kernel blockSize fresh) c.buffer with
    | error e =>
        rw [hresult] at hupdate
        cases hupdate
    | ok result =>
        obtain ⟨flushed, after, buffer⟩ := result
        obtain ⟨rfl, hmode⟩ := flush_success hidx hchoose hresult
        rw [hresult] at hupdate
        cases hupdate
        exact ⟨rfl, [], hreset, BitpackingState.reset_inv (hmode.trans hpush'.mode)⟩
  · rw [if_neg hnot] at hupdate
    cases hupdate
    exact ⟨rfl, _, hpush, hpush'⟩

theorem append_sameRows (h : SameRows mode st c) {input : List (Option type.Value)}
    (hanalyze : input.foldlM analyzeUpdate st = some st')
    (happend : c.append kernel blockSize fresh input = .ok c') : SameRows mode st' c' := by
  induction input generalizing st c with
  | nil =>
      obtain rfl := Option.some.inj hanalyze
      obtain rfl := Except.ok.inj happend
      exact h
  | cons val input ih =>
      obtain ⟨st₁, hval, hrest⟩ := Option.bind_eq_some_iff.mp hanalyze
      rw [BitpackingCompressionState.append, List.foldlM_cons] at happend
      cases hupdate : c.update kernel blockSize fresh val with
      | error e =>
          rw [hupdate] at happend
          cases happend
      | ok result =>
          obtain ⟨success, c₁⟩ := result
          rw [hupdate] at happend
          exact ih (update_success h hval hupdate).2 hrest happend

theorem flush_sameRows (h : SameRows mode st c) {size : Nat}
    (hanalyze : bitpackingFinalAnalyze st = some size)
    (hflush : c.flush kernel blockSize fresh = .ok (success, c')) : success = true := by
  obtain ⟨pending, hst, hc⟩ := h
  rw [BitpackingCompressionState.flush] at hflush
  cases hresult : c.state.flush (bitpackingWriter kernel blockSize fresh) c.buffer with
  | error e =>
      rw [hresult] at hflush
      cases hflush
  | ok result =>
      obtain ⟨flushed, after, buffer⟩ := result
      rw [hresult] at hflush
      cases hflush
      by_cases hidx : c.state.compressionBufferIdx = 0
      · rw [BitpackingState.flush_empty _ _ hidx] at hresult
        cases hresult
        rfl
      · have hchoose := finalAnalyze_choose hanalyze (by rwa [hst.idx, ← hc.idx])
        rw [BitpackingState.choose_isSome hst hc rfl] at hchoose
        exact (flush_success hidx hchoose hresult).1

end Flush

theorem foldlM_split {st st' : BitpackingState type} {rows done rest : List (Option type.Value)}
    (h : rows.foldlM analyzeUpdate st = some st') (hrows : rows = done ++ rest) :
    ∃ st₁, done.foldlM analyzeUpdate st = some st₁ ∧ rest.foldlM analyzeUpdate st₁ = some st' := by
  rw [hrows, List.foldlM_append] at h
  exact Option.bind_eq_some_iff.mp h

/-- The second pass flushes where the first one did. If the block admits a group, then data
and table stay apart all the time, and every group loads from its segment as it was written. -/
theorem bitpacking_keeps_groups (kernel : BitpackingKernel type.bits) (mode : BitpackingMode)
    (blockSize : Nat) (fresh : Nat → Memory UInt8) (buffer buffer' : Nat → type.Value)
    {rows : List (Option type.Value)} {size : Nat}
    (hanalyze : (rows.foldlM analyzeUpdate (.initial buffer mode)).bind bitpackingFinalAnalyze =
      some size) :
    (∀ done val rest, rows = done ++ val :: rest → ∀ c success c',
      (BitpackingCompressionState.initial blockSize fresh buffer' mode).append kernel blockSize
        fresh done = .ok c →
      c.update kernel blockSize fresh val = .ok (success, c') → success = true) ∧
    (∀ c success c',
      (BitpackingCompressionState.initial blockSize fresh buffer' mode).append kernel blockSize
        fresh rows = .ok c →
      c.flush kernel blockSize fresh = .ok (success, c') → success = true) ∧
    (AdmitsGroup type blockSize → blockSize ≤ 2 ^ 24 →
      (∀ done rest, rows = done ++ rest → ∃ c full current pending,
        (BitpackingCompressionState.initial blockSize fresh buffer' mode).append kernel blockSize
          fresh done = .ok c ∧
        Progress kernel blockSize mode c full current pending ∧
        groupRows (full.flatten ++ current) ++ pending = done) ∧
      ∃ c segments parts,
        (BitpackingCompressionState.initial blockSize fresh buffer' mode).append kernel blockSize
          fresh rows = .ok c ∧
        c.finalize kernel blockSize fresh = .ok segments ∧ groupRows parts.flatten = rows ∧
        List.Forall₂ (fun segment groups => SegmentHolds kernel segment groups ∧
          SegmentLoads kernel segment groups) segments parts) := by
  obtain ⟨st, hrows, hfinal⟩ := Option.bind_eq_some_iff.mp hanalyze
  have hsame : SameRows mode (.initial buffer mode)
      (.initial blockSize fresh buffer' mode : BitpackingCompressionState type) :=
    ⟨[], BitpackingState.reset_inv rfl, BitpackingState.reset_inv rfl⟩
  have hpasses : AdmitsGroup type blockSize → blockSize ≤ 2 ^ 24 → ∀ {done st₁},
      done.foldlM analyzeUpdate (.initial buffer mode) = some st₁ → ∃ c,
        (BitpackingCompressionState.initial blockSize fresh buffer' mode).append kernel blockSize
          fresh done = .ok c ∧ BothPasses kernel blockSize mode st₁ c done := by
    intro hadmits hblock done st₁ hdone
    have hsize : 16 ≤ blockSize := by
      simp only [AdmitsGroup, metaSize, headerSize] at hadmits
      omega
    exact append_ok hblock (fun _ => hadmits) (initial_bothPasses hsize buffer buffer') hdone
  refine ⟨fun done val rest hsplit c success c' happend hupdate => ?_,
    fun c success c' happend hflush => ?_, fun hadmits hblock => ⟨fun done rest hsplit => ?_, ?_⟩⟩
  · obtain ⟨st₁, hdone, hrest⟩ := foldlM_split hrows hsplit
    obtain ⟨st₂, hval, -⟩ := Option.bind_eq_some_iff.mp hrest
    exact (update_success (append_sameRows hsame hdone happend) hval hupdate).1
  · exact flush_sameRows (append_sameRows hsame hrows happend) hfinal hflush
  · obtain ⟨st₁, hdone, -⟩ := foldlM_split hrows hsplit
    obtain ⟨c, happend, full, current, pending, hprogress, -, hall⟩ := hpasses hadmits hblock hdone
    exact ⟨c, full, current, pending, happend, hprogress, hall⟩
  · obtain ⟨c, happend, hboth⟩ := hpasses hadmits hblock hrows
    obtain ⟨-, segments, parts, hfinalize, hholds⟩ :=
      finalize_ok hblock (fun _ => hadmits) hboth hfinal
    exact ⟨c, segments, parts, happend, hfinalize, hholds.rows,
      hholds.forall₂ fun segment groups h hgroups => ⟨h, segmentLoads_of_holds h hgroups⟩⟩

theorem bitpacking_keeps_groups_bytes :
    (∃ size, (byteVectors.flatten.foldlM analyzeUpdate (.initial (fun _ => ⊥) .auto)).bind
      bitpackingFinalAnalyze = some size) ∧
    AdmitsGroup ⟨false, .w8⟩ 65536 ∧ ∃ c segments, ∃ parts : List (List (WrittenGroup ⟨false, .w8⟩)),
      (BitpackingCompressionState.initial 65536 (fun _ _ => 170) (fun _ => ⊤) .auto).append
        (packKernel .bitStream (fun _ => 0) ⟨false, .w8⟩) 65536 (fun _ _ => 170)
        byteVectors.flatten = .ok c ∧
      c.finalize (packKernel .bitStream (fun _ => 0) ⟨false, .w8⟩) 65536 (fun _ _ => 170) =
        .ok segments ∧
      groupRows parts.flatten = byteVectors.flatten := by
  have h : (byteVectors.flatten.foldlM analyzeUpdate (.initial (fun _ => ⊥) .auto)).bind
      bitpackingFinalAnalyze = some 41 := by decide +kernel
  have hadmits : AdmitsGroup ⟨false, .w8⟩ 65536 := by
    simp only [AdmitsGroup, maxGroupSize, alignValue, metadataGroupSize, metaSize, headerSize,
      IntWidth.bytes]
    decide
  obtain ⟨-, -, hkeeps⟩ := bitpacking_keeps_groups
    (packKernel .bitStream (fun _ => 0) ⟨false, .w8⟩) .auto 65536 (fun _ _ => 170) (fun _ => ⊥)
    (fun _ => ⊤) h
  obtain ⟨c, segments, parts, happend, hfinalize, hrows, -⟩ := (hkeeps hadmits (by decide)).2
  exact ⟨⟨41, h⟩, hadmits, c, segments, parts, happend, hfinalize, hrows⟩

end MiniDuck
