import MiniDuck.RleScan

/-!
# Run length round trip

A segment opens as the runs that were written (`new_rle_ok`). From any of
its rows every call returns what the runs stand for and leads as many
rows on (`RleCall.run_ok`), and a run of calls follows by recursion
(`runRleCalls_ok`). Together with `rleCompress_ok` this gives
`rle_round_trip`.
-/

namespace MiniDuck

open RunLength

variable {α : Type} {t : RleType α} {blockSize : Nat} {segment : RleSegment}
  {entries : List (α × Nat)}

/-! ## Opening a segment -/

theorem RleSegmentHolds.congr (h : RleSegmentHolds t blockSize segment entries)
    {data : Memory UInt8} (hdata : ∀ i < segment.segmentSize, data i = segment.data i) :
    RleSegmentHolds t blockSize { segment with data := data } entries := by
  have hsize := h.size
  have hvalues : rleHeaderSize + t.size * entries.length ≤ rleCountOffset t entries := by
    simp only [rleCountOffset, alignValue, rleHeaderSize]
    omega
  have hheader : rleHeaderSize = 8 := rfl
  refine ⟨h.count, h.size, ?_, ?_, ?_, h.short, h.fits⟩
  · exact (Memory.read_congr fun i _ hi => hdata i (by omega)).trans h.header
  · exact (Memory.read_congr fun i _ hi => hdata i (by omega)).trans h.values
  · exact (Memory.read_congr fun i _ hi => hdata i (by omega)).trans h.counts

theorem RleSegmentHolds.entry (h : RleSegmentHolds t blockSize segment entries) {i : Nat}
    {run : α × Nat} (hrun : entries[i]? = some run) :
    (t.load (segment.data.read (rleHeaderSize + t.size * i) t.size),
      loadWord (segment.data.read (rleCountOffset t entries + rleCountSize * i) rleCountSize)) =
        run := by
  have hi := (List.getElem?_eq_some_iff.mp hrun).1
  have hvalue : segment.data.read (rleHeaderSize + t.size * i) t.size = t.store run.1 := by
    have hfit : t.size * i + t.size ≤ t.size * entries.length := by
      rw [← Nat.mul_succ]
      exact Nat.mul_le_mul_left _ hi
    rw [Memory.read_sub hfit, h.values]
    exact take_drop_flatMap (fun entry => t.length_store entry.1) hrun
  have hcount : segment.data.read (rleCountOffset t entries + rleCountSize * i) rleCountSize =
      storeBytes rleCountSize run.2 := by
    have hfit : rleCountSize * i + rleCountSize ≤ rleCountSize * entries.length := by
      rw [← Nat.mul_succ]
      exact Nat.mul_le_mul_left _ hi
    rw [Memory.read_sub hfit, h.counts]
    exact take_drop_flatMap (fun _ => length_storeBytes ..) hrun
  have hshort := h.short run (List.mem_of_getElem? hrun)
  rw [hvalue, hcount, t.load_store, loadWord_storeBytes, Nat.mod_eq_of_lt]
  exact hshort

theorem getElements_ok {β : Type} {r : CompressionSegmentReader} (load : List UInt8 → β)
    {offset n alignment count : Nat} (hoffset : offset ≤ r.size)
    (haligned : (r.address + offset) % alignment = 0) (hcount : count ≤ (r.size - offset) / n) :
    r.getElements load offset n alignment count =
      .ok fun i => load (r.data.read (offset + n * i) n) := by
  simp only [CompressionSegmentReader.getElements, CompressionSegmentReader.checkRange,
    CompressionSegmentReader.checkAligned, bind, Except.bind]
  rw [if_neg (Nat.not_lt.mpr hoffset), if_neg (Nat.not_lt_zero _)]
  simp only
  rw [if_neg (by rw [haligned]; exact fun h => h rfl)]
  simp only
  rw [if_neg (Nat.not_lt.mpr hcount)]

theorem new_rle_ok (h : RleSegmentHolds t blockSize segment entries) (hblock : blockSize < 2 ^ 64)
    {address size : Nat} (haddress : 8 ∣ address) (hsize : segment.segmentSize ≤ size) :
    ∃ s, RleScanState.new t address segment.data size segment.count = .ok s ∧ AtRow entries s 0 ∧
      (size = segment.segmentSize →
        ((List.range s.layout.entryCapacity).map s.layout.runCounts).sum = rowCount entries) := by
  have hsegment := h.size
  have hfits := h.fits
  obtain ⟨offset, hoffset⟩ : ∃ offset, offset = rleCountOffset t entries := ⟨_, rfl⟩
  have hcounts : rleCountSize * entries.length = 2 * entries.length := rfl
  have hvalues : rleHeaderSize + t.size * entries.length ≤ offset ∧ 8 ∣ offset := by
    rw [hoffset]
    simp only [rleCountOffset, alignValue, rleHeaderSize]
    omega
  have hword : loadWord (segment.data.read 0 8) = offset := by
    have hpow : (256 : Nat) ^ 8 = 2 ^ 64 := rfl
    rw [h.header, loadWord_storeBytes, hpow, ← hoffset, Nat.mod_eq_of_lt (by omega)]
  rw [← hoffset] at hsegment
  have hheader : rleHeaderSize = 8 := rfl
  obtain ⟨⟨k, hk⟩, hdvd⟩ := haddress, hvalues.2
  have hcapacity : entries.length ≤ min ((offset - rleHeaderSize) / t.size)
      ((size - offset) / rleCountSize) := by
    refine Nat.le_min.mpr ⟨?_, ?_⟩
    · rw [Nat.le_div_iff_mul_le t.size_pos, Nat.mul_comm]
      omega
    · simp only [rleCountSize]
      omega
  have halign : (address + rleHeaderSize) % t.alignment = 0 := by
    refine Nat.mod_eq_zero_of_dvd (t.alignment_dvd.trans ?_)
    omega
  have hlayout : RleScanState.readSegmentLayout t ⟨address, segment.data, size, 0, "RLE segment"⟩
      segment.count = .ok ⟨fun i => t.load (segment.data.read (rleHeaderSize + t.size * i) t.size),
        fun i => loadWord (segment.data.read (offset + rleCountSize * i) rleCountSize),
        min ((offset - rleHeaderSize) / t.size) ((size - offset) / rleCountSize), 0,
        segment.count⟩ := by
    simp only [RleScanState.readSegmentLayout, CompressionSegmentReader.read,
      CompressionSegmentReader.checkForwardRead, bind, Except.bind]
    rw [if_neg (by omega)]
    simp only [hword]
    rw [if_neg (by omega), getElements_ok t.load (by simp only; omega) halign
      (Nat.div_le_div_right (by simp only; omega))]
    simp only
    rw [getElements_ok loadWord (by simp only; omega) (by simp only [rleCountSize]; omega)
      (Nat.le_refl _)]
  refine ⟨_, by simp only [RleScanState.new, hlayout, bind, Except.bind]; rfl,
    ⟨⟨fun {i run} hrun => ?_, hcapacity, Nat.zero_le _, ?_⟩, Nat.zero_le _, rfl, Or.inl rfl⟩,
    fun hexact => ?_⟩
  · simp only
    rw [hoffset]
    exact h.entry hrun
  · simp only
    rw [h.count]
    exact Nat.zero_add _
  · have hlen : min ((offset - rleHeaderSize) / t.size) ((size - offset) / rleCountSize) =
        entries.length := by
      have hcount : (size - offset) / rleCountSize = entries.length := by
        simp only [rleCountSize]
        omega
      omega
    simp only [hlen]
    rw [rowCount]
    congr 1
    refine List.ext_getElem (by simp) fun i hi hi' => ?_
    rw [List.length_map, List.length_range] at hi
    have hentry := h.entry (List.getElem?_eq_getElem hi)
    rw [List.getElem_map, List.getElem_range, List.getElem_map, hoffset, ← hentry]

/-- A row is fetched in a scan of its own. -/
theorem rleFetchRow_ok {address size count : Nat} {data : Memory UInt8} {s : RleScanState α}
    (hnew : RleScanState.new t address data size count = .ok s) (hat : AtRow entries s 0)
    {row : Nat} (hrow : row < rowCount entries) :
    ∃ value, rleFetchRow t address data size count row = .ok value ∧
      (expand entries)[row]? = some value := by
  obtain ⟨s₁, hskip, hat₁⟩ := skipInternal_ok hat (by omega : 0 + row ≤ rowCount entries)
  rw [Nat.zero_add] at hat₁
  obtain ⟨run, s₂, hcurrent, hin, -⟩ := currentRun_ok hat₁ hrow
  refine ⟨run.1, ?_, ?_⟩
  · simp only [rleFetchRow, hnew, bind, Except.bind, hskip, hcurrent]
  · rw [hin.place]
    exact getElem?_expand_run hin.entry hin.within

/-! ## Calls in any order -/

/-- The calls on a segment. The vectors that they fill hold anything. -/
inductive RleCall (α : Type)
  | scan (scanCount : Nat) (result : Memory α)
  | scanPartial (scanCount : Nat) (result : Memory α) (resultOffset : Nat)
  | skip (skipCount : Nat)
  | select (vectorCount : Nat) (result : Memory α) (sel : List Nat) (resultOffset : Nat)
      (entireVector : Bool)
  | fetchRow (rowIndex : Nat)

namespace RleCall

def rows : RleCall α → Nat
  | scan n _ => n
  | scanPartial n .. => n
  | skip n => n
  | select n .. => n
  | fetchRow _ => 0

/-- What the callers see to. A scan or selection starts at a row of the segment, and a
selection is in order. -/
def Admissible (rowCount p : Nat) : RleCall α → Prop
  | scan n _ => p < rowCount ∧ p + n ≤ rowCount
  | scanPartial n .. => p < rowCount ∧ p + n ≤ rowCount
  | skip n => p + n ≤ rowCount
  | select n _ sel _ _ => 0 < n ∧ p + n ≤ rowCount ∧ sel.Pairwise (· ≤ ·) ∧ ∀ i ∈ sel, i < n
  | fetchRow row => row < rowCount

/-- A call, with the vector that it fills. A row is fetched in a scan of its own. -/
def run (fetch : Nat → Except String α) :
    RleCall α → RleScanState α → Except String (Option (RleVector α) × RleScanState α)
  | scan n result, s => (s.scan n result).map fun (v, s) => (some v, s)
  | scanPartial n result offset, s => (s.scanPartial n result offset).map fun (v, s) => (some v, s)
  | skip n, s => (s.skipInternal n).map fun s => (none, s)
  | select n result sel offset entireVector, s =>
      (s.select n result sel offset entireVector).map fun (v, s) => (some v, s)
  | fetchRow row, s => (fetch row).map fun value => (some (.constant value), s)

/-- The vector of a call at a row has every valid row as it was. -/
def Returns (rows : List (Option α)) (p : Nat) : RleCall α → Option (RleVector α) → Prop
  | scan n _, result => ∃ v, result = some v ∧ ∀ i < n, ∀ value,
      rows[p + i]? = some (some value) → v.get i = value
  | scanPartial n _ offset, result => ∃ v, result = some v ∧ ∀ i < n, ∀ value,
      rows[p + i]? = some (some value) → v.get (offset + i) = value
  | skip _, result => result = none
  | select _ _ sel offset _, result => ∃ v, result = some v ∧ ∀ j i value, sel[j]? = some i →
      rows[p + i]? = some (some value) → v.get (offset + j) = value
  | fetchRow row, result => ∃ v, result = some v ∧ ∀ value,
      rows[row]? = some (some value) → v.get 0 = value

end RleCall

def runRleCalls (fetch : Nat → Except String α) :
    List (RleCall α) → RleScanState α → Except String (List (Option (RleVector α)))
  | [], _ => .ok []
  | call :: calls, s => do
      let (result, s) ← call.run fetch s
      let results ← runRleCalls fetch calls s
      .ok (result :: results)

def AdmissibleCalls (rowCount : Nat) : Nat → List (RleCall α) → Prop
  | _, [] => True
  | p, call :: calls => call.Admissible rowCount p ∧ AdmissibleCalls rowCount (p + call.rows) calls

/-- All calls from a row on have returned what was stored. -/
def ReturnsRows (rows : List (Option α)) : Nat → List (RleCall α) →
    List (Option (RleVector α)) → Prop
  | _, [], results => results = []
  | p, call :: calls, results => ∃ result rest, results = result :: rest ∧
      call.Returns rows p result ∧ ReturnsRows rows (p + call.rows) calls rest

variable {rows : List (Option α)} {s : RleScanState α}

theorem getElem?_rowsFrom {p n i : Nat} {v : α} (hi : i < n)
    (hv : (expand entries)[p + i]? = some v) : (rowsFrom entries p n)[i]? = some v := by
  rw [rowsFrom, List.getElem?_take, if_pos hi, List.getElem?_drop]
  exact hv

/-- Every selected row has a value, so that none is left out. -/
theorem getElem?_selectedRows {p j i : Nat} {sel : List Nat}
    (hsel : ∀ i ∈ sel, p + i < rowCount entries) (hj : sel[j]? = some i) :
    (selectedRows entries p sel)[j]? = (expand entries)[p + i]? := by
  induction sel generalizing j with
  | nil => simp at hj
  | cons k sel ih =>
      have hk : p + k < (expand entries).length := by
        rw [length_expand]
        exact hsel k List.mem_cons_self
      rw [selectedRows, List.filterMap_cons, List.getElem?_eq_getElem hk]
      cases j with
      | zero =>
          obtain rfl := Option.some.inj hj
          rw [List.getElem?_eq_getElem hk]
          rfl
      | succ j => exact ih (fun i hi => hsel i (List.mem_cons_of_mem _ hi)) hj

theorem RleCall.run_ok {fetch : Nat → Except String α} {p : Nat} (call : RleCall α)
    (hrestores : RestoresRows (expand entries) rows)
    (hfetch : ∀ row < rowCount entries, ∃ value, fetch row = .ok value ∧
      (expand entries)[row]? = some value)
    (h : AtRow entries s p) (hadmissible : call.Admissible (rowCount entries) p) :
    ∃ result s', call.run fetch s = .ok (result, s') ∧ call.Returns rows p result ∧
      AtRow entries s' (p + call.rows) := by
  have hscan : ∀ {v : RleVector α} {offset n : Nat}, v.Has offset (rowsFrom entries p n) →
      ∀ i < n, ∀ value, rows[p + i]? = some (some value) → v.get (offset + i) = value :=
    fun hv i hi value hvalue => hv i value (getElem?_rowsFrom hi (hrestores.getElem? hvalue))
  cases call with
  | scan n result =>
      obtain ⟨v, s', hrun, hv, hat⟩ :=
        scanPartialInternal_ok true result 0 h hadmissible.1 hadmissible.2
      refine ⟨some v, s', ?_, ⟨v, rfl, fun i hi value hvalue => ?_⟩, hat⟩
      · rw [RleCall.run, RleScanState.scan, hrun]
        rfl
      · have hget := hscan hv i hi value hvalue
        rwa [Nat.zero_add] at hget
  | scanPartial n result offset =>
      obtain ⟨v, s', hrun, hv, hat⟩ :=
        scanPartialInternal_ok false result offset h hadmissible.1 hadmissible.2
      refine ⟨some v, s', ?_, ⟨v, rfl, hscan hv⟩, hat⟩
      rw [RleCall.run, RleScanState.scanPartial, hrun]
      rfl
  | skip n =>
      obtain ⟨s', hrun, hat⟩ := skipInternal_ok h hadmissible
      exact ⟨none, s', by rw [RleCall.run, hrun]; rfl, rfl, hat⟩
  | select n result sel offset entireVector =>
      obtain ⟨hn, hfit, hsorted, hlt⟩ := hadmissible
      obtain ⟨v, s', hrun, hv, hat⟩ := select_ok result offset entireVector h hn hfit hsorted hlt
      refine ⟨some v, s', ?_, ⟨v, rfl, fun j i value hj hvalue => hv j value ?_⟩, hat⟩
      · rw [RleCall.run, hrun]
        rfl
      · rw [getElem?_selectedRows (fun i hi => by have := hlt i hi; omega) hj]
        exact hrestores.getElem? hvalue
  | fetchRow row =>
      obtain ⟨value, hvalue, hstored⟩ := hfetch row hadmissible
      refine ⟨some (.constant value), s, by rw [RleCall.run, hvalue]; rfl,
        ⟨_, rfl, fun value' hrow => ?_⟩, h⟩
      rw [hrestores.getElem? hrow] at hstored
      exact (Option.some.inj hstored).symm

theorem runRleCalls_ok {fetch : Nat → Except String α}
    (hrestores : RestoresRows (expand entries) rows)
    (hfetch : ∀ row < rowCount entries, ∃ value, fetch row = .ok value ∧
      (expand entries)[row]? = some value) :
    {calls : List (RleCall α)} → {p : Nat} → {s : RleScanState α} → AtRow entries s p →
      AdmissibleCalls (rowCount entries) p calls →
      ∃ results, runRleCalls fetch calls s = .ok results ∧ ReturnsRows rows p calls results
  | [], _, _, _, _ => ⟨[], rfl, rfl⟩
  | call :: calls, p, s, h, hadmissible => by
      obtain ⟨result, s', hrun, hreturns, hat⟩ :=
        call.run_ok hrestores hfetch h hadmissible.1
      obtain ⟨results, hruns, hrest⟩ := runRleCalls_ok hrestores hfetch hat hadmissible.2
      refine ⟨result :: results, ?_, ⟨result, results, rfl, hreturns, hrest⟩⟩
      simp only [runRleCalls, hrun, bind, Except.bind, hruns]

/-! ## The round trip -/

/-- The segment reads as these rows, wherever it is loaded to, and its runs add up to its count. -/
def RleSegmentReads (t : RleType α) (segment : RleSegment) (rows : List (Option α)) : Prop :=
  segment.count = rows.length ∧
  ∀ (address size : Nat) (data : Memory UInt8), 8 ∣ address → segment.segmentSize ≤ size →
    (∀ i < segment.segmentSize, data i = segment.data i) →
    ∃ s, RleScanState.new t address data size segment.count = .ok s ∧
      (size = segment.segmentSize →
        ((List.range s.layout.entryCapacity).map s.layout.runCounts).sum = segment.count) ∧
      ∀ calls : List (RleCall α), AdmissibleCalls rows.length 0 calls →
        ∃ results, runRleCalls (rleFetchRow t address data size segment.count) calls s =
          .ok results ∧ ReturnsRows rows 0 calls results

theorem rleSegmentReads_of_holds (h : RleSegmentHolds t blockSize segment entries)
    (hblock : blockSize < 2 ^ 64) (hrestores : RestoresRows (expand entries) rows) :
    RleSegmentReads t segment rows := by
  have hlen := hrestores.length
  rw [length_expand] at hlen
  refine ⟨by rw [h.count, hlen], fun address size data haddress hsize hdata => ?_⟩
  obtain ⟨s, hnew, hat, hsum⟩ := new_rle_ok (h.congr hdata) hblock haddress hsize
  refine ⟨s, hnew, fun hexact => by rw [hsum hexact, h.count], fun calls hadmissible => ?_⟩
  rw [← hlen] at hadmissible
  exact runRleCalls_ok hrestores (fun row hrow => rleFetchRow_ok hnew hat hrow) hat hadmissible

/-- Whatever is compressed into blocks that hold entries is read back, segment by segment. -/
theorem rle_round_trip [DecidableEq α] (t : RleType α) {blockSize : Nat}
    (hblock : blockSize < 2 ^ 64) (hmax : 0 < maxRleCount t blockSize)
    (fresh : Nat → Memory UInt8) (nullValue : α) (vectors : List (List (Option α))) :
    ∃ parts, parts.flatten = vectors.flatten ∧
      List.Forall₂ (RleSegmentReads t) (rleCompress t blockSize fresh nullValue vectors) parts := by
  obtain ⟨entryParts, hholds, hrestores⟩ :
      ∃ parts, List.Forall₂ (RleSegmentHolds t blockSize)
        (rleCompress t blockSize fresh nullValue vectors) parts ∧ _ :=
    rleCompress_ok hmax nullValue vectors
  obtain ⟨parts, hflatten, hparts⟩ := restores_parts hrestores
  refine ⟨parts, hflatten, ?_⟩
  clear hflatten hrestores
  generalize rleCompress t blockSize fresh nullValue vectors = segments at hholds ⊢
  induction hholds generalizing parts with
  | nil =>
      cases hparts
      exact .nil
  | cons hhead _ ih =>
      cases hparts with
      | cons hpart hrest => exact .cons (rleSegmentReads_of_holds hhead hblock hpart) (ih _ hrest)

/-- `UTINYINT` -/
def rleByte : RleType UInt8 where
  size := 1
  alignment := 1
  store v := [v]
  load bytes := bytes.headD 0
  size_pos := Nat.one_pos
  alignment_dvd := Nat.one_dvd 8
  length_store _ := rfl
  load_store _ := rfl

theorem rle_round_trip_bytes : 0 < maxRleCount rleByte 16384 ∧ ∃ parts,
    parts.flatten = [some 7, none, some 7, some 9] ∧
    List.Forall₂ (RleSegmentReads rleByte)
      (rleCompress rleByte 16384 (fun _ _ => 170) 0 [[some 7, none], [some 7, some 9]]) parts :=
  ⟨by decide, rle_round_trip rleByte (by decide) (by decide) _ 0 [[some 7, none], [some 7, some 9]]⟩

end MiniDuck
