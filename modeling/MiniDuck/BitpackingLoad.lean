import MiniDuck.BitpackingScan

/-!
# Finding the groups of a segment

A segment that holds some groups (`SegmentHolds`) opens, and each of its
groups loads as what was written: the entry that `GetGroupMetadata` looks
up in the reversed table is that of the group
(`getGroupMetadata_ok`), its offset is where the data of the group starts
(`read_group`), and header and payload are read in the order in which
they were stored (`readHeader_ok`, `unpacks_payload`). `loadGroup_ok` puts
this together.
-/

namespace MiniDuck

open IntegralType BitpackingPrimitives SegmentBuffer WrittenGroup

variable {type : IntegralType} {kernel : BitpackingKernel type.bits}
  {groups : List (WrittenGroup type)} {segment : BitpackingSegment}

/-! ## Counting rows -/

theorem WrittenGroup.rowCount_cons (g : WrittenGroup type) (groups : List (WrittenGroup type)) :
    rowCount (g :: groups) = g.rows.length + rowCount groups := by
  simp [rowCount]

theorem SegmentGroups.tail {g : WrittenGroup type} (h : SegmentGroups (g :: groups)) :
    SegmentGroups groups := by
  refine ⟨fun g' hg' => h.encodes g' (List.mem_cons_of_mem _ hg'),
    fun g' hg' => h.count g' (List.mem_cons_of_mem _ hg'), fun g' hg' => ?_⟩
  cases groups with
  | nil => exact absurd hg' List.not_mem_nil
  | cons g₁ rest => exact h.full g' (List.mem_cons_of_mem _ hg')

/-- A group that is not the last one is full. -/
theorem SegmentGroups.head_full {g g₁ : WrittenGroup type} {rest : List (WrittenGroup type)}
    (h : SegmentGroups (g :: g₁ :: rest)) : g.rows.length = metadataGroupSize :=
  h.full g List.mem_cons_self

theorem rowCount_bounds (h : SegmentGroups groups) :
    rowCount groups ≤ metadataGroupSize * groups.length ∧
      metadataGroupSize * groups.length < rowCount groups + metadataGroupSize := by
  induction groups with
  | nil => simp [rowCount]
  | cons g rest ih =>
      obtain ⟨hle, hlt⟩ := ih h.tail
      have hcount := h.count g List.mem_cons_self
      rw [WrittenGroup.rowCount_cons, List.length_cons]
      cases rest with
      | nil =>
          simp only [rowCount, List.map_nil, List.sum_nil, List.length_nil, metadataGroupSize] at *
          omega
      | cons g₁ rest =>
          have hfull := h.head_full
          simp only [metadataGroupSize] at *
          omega

theorem groupCount_eq (h : SegmentGroups groups) :
    (rowCount groups / metadataGroupSize + if rowCount groups % metadataGroupSize ≠ 0 then 1 else 0) =
      groups.length := by
  obtain ⟨hle, hlt⟩ := rowCount_bounds h
  simp only [metadataGroupSize] at *
  split <;> omega

/-- The rows of a group start at a multiple of 2048. -/
theorem groupRowCount_eq (h : SegmentGroups groups) {i : Nat} {g : WrittenGroup type}
    (hg : groups[i]? = some g) :
    min metadataGroupSize (rowCount groups - i * metadataGroupSize) = g.rows.length := by
  induction groups generalizing i with
  | nil => simp at hg
  | cons g₀ rest ih =>
      have hcount := h.count g₀ List.mem_cons_self
      rw [WrittenGroup.rowCount_cons]
      cases i with
      | zero =>
          obtain rfl : g₀ = g := by simpa using hg
          cases rest with
          | nil =>
              simp only [rowCount, List.map_nil, List.sum_nil, metadataGroupSize] at *
              omega
          | cons g₁ rest =>
              have hfull := h.head_full
              simp only [metadataGroupSize] at *
              omega
      | succ i =>
          rw [List.getElem?_cons_succ] at hg
          have hrest := ih h.tail hg
          cases rest with
          | nil => simp at hg
          | cons g₁ rest =>
              have hfull := h.head_full
              simp only [metadataGroupSize] at *
              omega

/-! ## Where a group is -/

theorem getElem?_entries {offset i : Nat} {g : WrittenGroup type} (hg : groups[i]? = some g) :
    (entries kernel offset groups)[i]? =
      some ⟨g.call.mode, offset + (dataBytes kernel (groups.take i)).length⟩ := by
  induction groups generalizing offset i with
  | nil => simp at hg
  | cons g₀ rest ih =>
      cases i with
      | zero =>
          obtain rfl : g₀ = g := by simpa using hg
          simp [entries, dataBytes]
      | succ i =>
          rw [List.getElem?_cons_succ] at hg
          rw [entries, List.getElem?_cons_succ, ih hg, List.take_succ_cons]
          simp [dataBytes, Nat.add_assoc]

theorem dataBytes_split {i : Nat} {g : WrittenGroup type} (hg : groups[i]? = some g) :
    dataBytes kernel groups = dataBytes kernel (groups.take i) ++ g.bytes kernel ++
      dataBytes kernel (groups.drop (i + 1)) := by
  obtain ⟨hi, rfl⟩ := List.getElem?_eq_some_iff.mp hg
  have hsplit : groups = groups.take i ++ groups[i] :: groups.drop (i + 1) := by
    rw [← List.drop_eq_getElem_cons hi, List.take_append_drop]
  rw [dataBytes, dataBytes, dataBytes]
  conv_lhs => rw [hsplit]
  rw [List.flatMap_append, List.flatMap_cons, List.append_assoc]

theorem dataBytes_take_succ {i : Nat} {g : WrittenGroup type} (hg : groups[i]? = some g) :
    dataBytes kernel (groups.take (i + 1)) =
      dataBytes kernel (groups.take i) ++ g.bytes kernel := by
  rw [List.take_add_one, hg]
  simp [dataBytes]

theorem SegmentHolds.read_group (h : SegmentHolds kernel segment groups) {i : Nat}
    {g : WrittenGroup type} (hg : groups[i]? = some g) :
    segment.data.read (headerSize + (dataBytes kernel (groups.take i)).length)
      (g.bytes kernel).length = g.bytes kernel :=
  Memory.read_middle (h.data.trans (dataBytes_split hg))

theorem SegmentHolds.congr (h : SegmentHolds kernel segment groups) {data : Memory UInt8}
    (hdata : ∀ i < segment.segmentSize, data i = segment.data i) :
    SegmentHolds kernel { segment with data := data } groups := by
  have hsize := h.size
  obtain ⟨hle, -⟩ := le_alignValue (headerSize + (dataBytes kernel groups).length)
  have hheader : headerSize = 8 := rfl
  refine ⟨h.count, h.size, ?_, ?_, ?_, h.fits⟩
  · exact (Memory.read_congr fun i _ hi => hdata i (by omega)).trans h.header
  · exact (Memory.read_congr fun i _ hi => hdata i (by omega)).trans h.data
  · exact (Memory.read_congr fun i _ hi => hdata i (by omega)).trans h.table

/-! ## Reading in order -/

namespace CompressionSegmentReader

variable {r : CompressionSegmentReader} {x y : List UInt8}

structure Next (r : CompressionSegmentReader) (bytes : List UInt8) : Prop where
  fits : r.position + bytes.length ≤ r.size
  read : r.data.read r.position bytes.length = bytes

theorem read_ok (h : r.Next (x ++ y)) {n : Nat} (hn : x.length = n) :
    r.read n = .ok (x, { r with position := r.position + n }) ∧
      ({ r with position := r.position + n } : CompressionSegmentReader).Next y := by
  have hfits := h.fits
  have hread := h.read
  rw [List.length_append] at hfits hread
  rw [Memory.read_add] at hread
  obtain ⟨hx, hy⟩ := List.append_inj hread (Memory.length_read ..)
  subst hn
  refine ⟨?_, ⟨by simp only; omega, hy⟩⟩
  rw [read, checkForwardRead, if_neg (by omega)]
  simp only [bind, Except.bind]
  rw [hx]

theorem readBytesAligned_ok (h : r.Next x) {alignment : Nat}
    (haligned : (r.address + r.position) % alignment = 0) :
    (r.readBytesAligned x.length alignment).map (some ∘ Prod.fst) = .ok (some x) := by
  have hfits := h.fits
  rw [readBytesAligned, checkForwardRead, if_neg (by omega), checkAligned,
    if_neg (by simpa using haligned)]
  simp only [bind, Except.bind, Except.map, Function.comp]
  rw [h.read]

end CompressionSegmentReader

namespace BitpackingScanState

theorem pow_bytes (type : IntegralType) : 256 ^ type.width.bytes = 2 ^ type.bits := by
  rw [IntegralType.bits, Nat.pow_mul]

theorem loadValue_storeValue (v : BitVec type.bits) :
    loadValue type (storeValue type v) = v := by
  apply BitVec.eq_of_toNat_eq
  rw [loadValue, storeValue, loadWord_storeBytes, pow_bytes, BitVec.toNat_ofNat, Nat.mod_mod,
    Nat.mod_eq_of_lt v.isLt]

theorem bits_lt (type : IntegralType) : type.bits < 2 ^ type.bits := Nat.lt_two_pow_self

theorem validateWidth_ok {width : Nat} (h : width ≤ type.bits) :
    validateWidth (loadValue type (storeBytes type.width.bytes width)) = .ok width := by
  have hlt := bits_lt type
  have hwidth : (loadValue type (storeBytes type.width.bytes width)).toNat = width := by
    rw [loadValue, loadWord_storeBytes, pow_bytes, BitVec.toNat_ofNat, Nat.mod_mod,
      Nat.mod_eq_of_lt (by omega)]
  rw [validateWidth, hwidth, if_neg (by omega)]

theorem readHeader_ok {w : BitpackingWrite type} {r : CompressionSegmentReader}
    {rest : List UInt8} (h : r.Next (w.header ++ rest)) (hw : w.width ≤ type.bits) :
    ∃ r', readHeader w.mode r = .ok (w.width, w.frame, w.constant, w.previous 0, r') ∧
      r'.Next rest ∧ r'.address = r.address ∧ r'.position = r.position + w.header.length := by
  cases w with
  | writeConstant constant =>
      rw [BitpackingWrite.header] at h
      obtain ⟨hread, hnext⟩ := CompressionSegmentReader.read_ok h (length_storeValue _)
      refine ⟨_, ?_, hnext, rfl, by simp [BitpackingWrite.header]⟩
      simp only [BitpackingWrite.mode, readHeader, bind, Except.bind, hread, loadValue_storeValue]
      rfl
  | writeConstantDelta constant frame =>
      rw [BitpackingWrite.header, List.append_assoc] at h
      obtain ⟨hread, hnext⟩ := CompressionSegmentReader.read_ok h (length_storeValue _)
      obtain ⟨hread', hnext'⟩ := CompressionSegmentReader.read_ok hnext (length_storeValue _)
      refine ⟨_, ?_, hnext', rfl, by simp [BitpackingWrite.header, Nat.add_assoc]⟩
      simp only [BitpackingWrite.mode, readHeader, bind, Except.bind, hread, hread']
      rw [loadValue_storeValue]
      exact congrArg (fun v => Except.ok (0, type.toBits frame, v, 0, _))
        (loadValue_storeValue (type.makeSigned.toBits constant))
  | writeDeltaFor values width frame offset =>
      have hwidth : width ≤ type.bits := hw
      rw [BitpackingWrite.header, List.append_assoc, List.append_assoc] at h
      obtain ⟨hread, hnext⟩ := CompressionSegmentReader.read_ok h (length_storeValue _)
      obtain ⟨hread', hnext'⟩ := CompressionSegmentReader.read_ok hnext (length_storeBytes _ _)
      obtain ⟨hread'', hnext''⟩ := CompressionSegmentReader.read_ok hnext' (length_storeValue _)
      refine ⟨_, ?_, hnext'', rfl, by simp [BitpackingWrite.header, Nat.add_assoc]⟩
      simp only [BitpackingWrite.mode, readHeader, bind, Except.bind, hread, hread', hread'']
      rw [validateWidth_ok hwidth, loadValue_storeValue]
      exact congrArg (fun v => Except.ok (width, type.toBits frame, 0, v, _))
        (loadValue_storeValue (type.makeSigned.toBits offset))
  | writeFor values width frame =>
      have hwidth : width ≤ type.bits := hw
      rw [BitpackingWrite.header, List.append_assoc] at h
      obtain ⟨hread, hnext⟩ := CompressionSegmentReader.read_ok h (length_storeValue _)
      obtain ⟨hread', hnext'⟩ := CompressionSegmentReader.read_ok hnext (length_storeBytes _ _)
      refine ⟨_, ?_, hnext', rfl, by simp [BitpackingWrite.header, Nat.add_assoc]⟩
      simp only [BitpackingWrite.mode, readHeader, bind, Except.bind, hread, hread']
      rw [validateWidth_ok hwidth, loadValue_storeValue]
      rfl

/-! ## Opening a segment -/

/-- The state of a scan over a segment, whatever it has read. -/
structure Opened (kernel : BitpackingKernel type.bits) (s : BitpackingScanState type)
    (segment : BitpackingSegment) (groups : List (WrittenGroup type)) (address : Nat) : Prop where
  segmentCount : s.segmentCount = rowCount groups
  groupCount : s.groupCount = groups.length
  tableStart : s.metadataTableStart = alignValue (headerSize + (dataBytes kernel groups).length) 8
  table : ∀ i g, groups[i]? = some g → s.getGroupMetadata i =
    .ok ⟨g.call.mode, headerSize + (dataBytes kernel (groups.take i)).length⟩
  reader : s.reader = ⟨address + headerSize, fun i => segment.data (headerSize + i),
    s.metadataTableStart - headerSize, 0, "bitpacking group data"⟩

theorem table_word (h : SegmentHolds kernel segment groups) {i : Nat} (hi : i < groups.length) :
    ∃ metadata, (entries kernel headerSize groups).reverse[i]? = some metadata ∧
      segment.data.read (alignValue (headerSize + (dataBytes kernel groups).length) 8 +
        metaSize * i) metaSize = storeBytes metaSize (encodeMeta metadata) := by
  have hlt : i < (entries kernel headerSize groups).reverse.length := by simpa using hi
  refine ⟨_, List.getElem?_eq_getElem hlt, ?_⟩
  have hfit : metaSize * i + metaSize ≤ 4 * groups.length := by
    simp only [metaSize]
    omega
  rw [Memory.read_sub hfit, h.table]
  exact take_drop_flatMap (fun _ => length_storeBytes ..) (List.getElem?_eq_getElem hlt)

theorem entry_offset_lt (h : SegmentHolds kernel segment groups) {i : Nat} {g : WrittenGroup type}
    (hg : groups[i]? = some g) (hpos : 0 < (g.bytes kernel).length) :
    headerSize + (dataBytes kernel (groups.take i)).length < 2 ^ 24 := by
  have hfits := h.fits
  have hsplit := congrArg List.length (@dataBytes_split _ kernel _ _ _ hg)
  rw [List.length_append, List.length_append] at hsplit
  omega

theorem length_bytes_pos (g : WrittenGroup type) : 0 < (g.bytes kernel).length := by
  have hbytes : 0 < type.width.bytes := by cases type.width <;> decide
  rw [WrittenGroup.bytes, BitpackingWrite.bytes, List.length_append]
  cases g.call <;> simp [BitpackingWrite.header] <;> omega

theorem sub_wrap {x y : Nat} (h : y ≤ x) (hx : x < 2 ^ 64) : (x + 2 ^ 64 - y) % 2 ^ 64 = x - y := by
  omega

theorem segmentSize_lt (h : SegmentHolds kernel segment groups) :
    segment.segmentSize < 2 ^ 64 := by
  have hsize := h.size
  have hfits := h.fits
  obtain ⟨-, hge⟩ := le_alignValue (headerSize + (dataBytes kernel groups).length)
  have hlen : groups.length ≤ (dataBytes kernel groups).length := by
    rw [dataBytes, List.length_flatMap]
    refine le_trans (le_of_eq ?_) (List.card_nsmul_le_sum _ 1 fun n hn => ?_)
    · simp
    · obtain ⟨g, -, rfl⟩ := List.mem_map.mp hn
      exact length_bytes_pos g
  omega

theorem getMetadataTableStart_ok (h : SegmentHolds kernel segment groups) {address size : Nat}
    {context : String} (hsize : segment.segmentSize ≤ size) :
    getMetadataTableStart ⟨address, segment.data, size, 0, context⟩ groups.length =
      .ok (alignValue (headerSize + (dataBytes kernel groups).length) 8) := by
  have hseg := h.size
  have hheader : headerSize = 8 := rfl
  obtain ⟨hle, -⟩ := le_alignValue (headerSize + (dataBytes kernel groups).length)
  have hlt := segmentSize_lt h
  have hpow : (256 : Nat) ^ 8 = 2 ^ 64 := by norm_num
  have hword : loadWord (segment.data.read 0 8) = segment.segmentSize := by
    rw [h.header, loadWord_storeBytes, hpow, Nat.mod_eq_of_lt hlt]
  have hsub := sub_wrap (by omega : groups.length * 4 ≤ segment.segmentSize) hlt
  simp only [getMetadataTableStart, CompressionSegmentReader.get,
    CompressionSegmentReader.checkRange, bind, Except.bind]
  rw [if_neg (by omega), if_neg (by omega)]
  simp only
  rw [hword]
  exact congrArg Except.ok (hsub.trans (by omega))

/-- A segment opens, and its entries are those of its groups. -/
theorem new_ok (h : SegmentHolds kernel segment groups) (hgroups : SegmentGroups groups)
    {address size : Nat} (haddress : 4 ∣ address) (hsize : segment.segmentSize ≤ size) :
    ∃ s : BitpackingScanState type, new address segment.data size segment.count = .ok s ∧
      Opened kernel s segment groups address ∧ s.groupState = .initial := by
  have hseg := h.size
  have hheader : headerSize = 8 := rfl
  obtain ⟨hle, hge⟩ := le_alignValue (headerSize + (dataBytes kernel groups).length)
  have haligned : (address + alignValue (headerSize + (dataBytes kernel groups).length) 8) %
      metaSize = 0 := by
    obtain ⟨k, rfl⟩ := haddress
    simp only [alignValue, metaSize]
    omega
  have hstart : ∀ context, getMetadataTableStart ⟨address, segment.data, size, 0, context⟩
      groups.length = .ok (alignValue (headerSize + (dataBytes kernel groups).length) 8) :=
    fun context => getMetadataTableStart_ok h hsize
  obtain ⟨start, hstartEq⟩ : ∃ start,
      start = alignValue (headerSize + (dataBytes kernel groups).length) 8 := ⟨_, rfl⟩
  let words := (List.range groups.length).map fun i =>
    loadWord (segment.data.read (start + metaSize * i) metaSize)
  refine ⟨⟨⟨address + headerSize, fun i => segment.data (headerSize + i), start - headerSize, 0,
    "bitpacking group data"⟩, rowCount groups, groups.length, start, words, .initial⟩, ?_,
    ⟨rfl, rfl, hstartEq, fun i g hg => ?_, rfl⟩, rfl⟩
  · rw [← hstartEq] at hstart haligned
    rw [new, h.count, groupCount_eq hgroups]
    simp only [hstart, CompressionSegmentReader.checkRange,
      CompressionSegmentReader.getArray, CompressionSegmentReader.checkAligned,
      CompressionSegmentReader.getSubReader, bind, Except.bind]
    rw [if_neg (by omega), if_neg (by omega)]
    simp only
    rw [if_neg (by simpa using haligned)]
    simp only
    rw [if_neg (by simp only [metaSize]; omega)]
    simp only
    rw [if_neg (by omega), if_neg (by omega), if_neg (by omega)]
  · obtain ⟨hi, -⟩ := List.getElem?_eq_some_iff.mp hg
    have hrev : groups.length - 1 - i < groups.length := by omega
    obtain ⟨metadata, hmetadata, hread⟩ := table_word h hrev
    have hentry := @getElem?_entries _ kernel _ headerSize _ _ hg
    rw [List.getElem?_reverse (by simpa using hrev), length_entries] at hmetadata
    have hindex : groups.length - 1 - (groups.length - 1 - i) = i := by omega
    rw [hindex, hentry] at hmetadata
    obtain rfl := Option.some.inj hmetadata
    have hlt := entry_offset_lt h hg (length_bytes_pos g)
    rw [getGroupMetadata, if_neg (by simp only; omega)]
    simp only [words]
    rw [List.getD_eq_getElem?_getD, List.getElem?_map, List.getElem?_range hrev, Option.map_some,
      Option.getD_some, hstartEq, hread, loadWord_storeBytes,
      Nat.mod_eq_of_lt (encodeMeta_lt hlt), decodeMeta_encodeMeta hlt]

/-! ## Unpacking -/

def source : BitpackingWrite type → Nat → BitVec type.bits
  | .writeConstant _, _ => 0
  | .writeConstantDelta .., _ => 0
  | .writeDeltaFor values .., i => type.toBits (values i)
  | .writeFor values .., i => type.toBits (values i)

theorem payload_eq {w : BitpackingWrite type} (h : w.IsPacked) (count : Nat) :
    w.payload kernel count = packBuffer kernel (source w) count w.width := by
  cases w with
  | writeConstant constant => exact h.elim
  | writeConstantDelta constant frame => exact h.elim
  | writeDeltaFor values width frame offset => rfl
  | writeFor values width frame => rfl

theorem packed_eq {w : BitpackingWrite type} (h : w.IsPacked) (i : Nat) :
    w.packed i = lowBits w.width (source w i) := by
  cases w with
  | writeConstant constant => exact h.elim
  | writeConstantDelta constant frame => exact h.elim
  | writeDeltaFor values width frame offset => rfl
  | writeFor values width frame => rfl

theorem padded_eq {w : BitpackingWrite type} (h : w.IsPacked) (count i : Nat) :
    w.padded count i = lowBits w.width (if i < count then source w i else 0) := by
  unfold BitpackingWrite.padded
  split
  · exact packed_eq h i
  · exact (lowBits_eq (Nat.two_pow_pos _)).symm

theorem getRequiredSize_group (width : Nat) : getRequiredSize algorithmGroupSize width = 4 * width := by
  have hone : algorithmGroups algorithmGroupSize = 1 := rfl
  rw [getRequiredSize_eq, hone, Nat.mul_one]

theorem unpacks_payload {cur : CurrentGroup type} {g : WrittenGroup type} (hpacked : g.call.IsPacked)
    (hwidth : g.call.width ≤ type.bits) (hcur : cur.width = g.call.width)
    (hsize : cur.algorithmGroupSize = 4 * g.call.width)
    (hpayload : g.call.width ≠ 0 → cur.payload = some (g.call.payload kernel g.rows.length)) :
    cur.Unpacks kernel g := by
  intro offset hoffset
  unfold CurrentGroup.unpackAlgorithmGroup
  simp only [hcur]
  by_cases h0 : g.call.width = 0
  · rw [if_pos h0]
    refine congrArg Except.ok (List.ext_getElem (by simp) fun j hj hj' => ?_)
    rw [List.getElem_replicate, List.getElem_map, padded_eq hpacked, h0, lowBits, Nat.pow_zero,
      Nat.mod_one]
    rfl
  · rw [if_neg h0, hpayload h0]
    simp only [hsize]
    have hindex : (List.range (algorithmGroups g.rows.length))[offset / 32]? = some (offset / 32) := by
      refine List.getElem?_range ?_
      simp only [algorithmGroups, algorithmGroupSize]
      split <;> omega
    have hmul : offset / algorithmGroupSize * (4 * g.call.width) =
        4 * g.call.width * (offset / 32) := Nat.mul_comm _ _
    rw [payload_eq hpacked, packBuffer_eq, hmul,
      take_drop_flatMap (fun i => kernel.length_fastpack hwidth (by simp)) hindex,
      kernel.fastunpack_fastpack hwidth (by simp), List.map_map]
    refine congrArg Except.ok (List.map_congr_left fun j _ => ?_)
    rw [padded_eq hpacked, Function.comp_apply, Nat.mul_comm 32]

/-! ## Loading a group -/

theorem alignment_dvd (type : IntegralType) :
    min type.width.bytes 4 ∣ type.width.bytes ∧ min type.width.bytes 4 ∣ 4 := by
  cases type.width <;> decide

theorem header_aligned (w : BitpackingWrite type) : min type.width.bytes 4 ∣ w.header.length := by
  have hbytes := (alignment_dvd type).1
  cases w with
  | writeConstant constant => simpa [BitpackingWrite.header] using hbytes
  | writeConstantDelta constant frame =>
      simpa [BitpackingWrite.header] using Nat.dvd_add hbytes hbytes
  | writeDeltaFor values width frame offset =>
      simpa [BitpackingWrite.header] using Nat.dvd_add hbytes (Nat.dvd_add hbytes hbytes)
  | writeFor values width frame =>
      simpa [BitpackingWrite.header] using Nat.dvd_add hbytes hbytes

theorem payload_length {w : BitpackingWrite type} (h : w.IsPacked) (hw : w.width ≤ type.bits)
    (count : Nat) : (w.payload kernel count).length = 4 * w.width * algorithmGroups count := by
  rw [payload_eq h, length_packBuffer kernel _ _ hw, getRequiredSize_eq]

theorem payload_of_not_packed {w : BitpackingWrite type} (h : ¬ w.IsPacked) (count : Nat) :
    w.payload kernel count = [] := by
  cases w with
  | writeConstant constant => rfl
  | writeConstantDelta constant frame => rfl
  | writeDeltaFor values width frame offset => exact absurd trivial h
  | writeFor values width frame => exact absurd trivial h

theorem bytes_aligned {g : WrittenGroup type} (hw : g.call.width ≤ type.bits) :
    min type.width.bytes 4 ∣ (g.bytes kernel).length := by
  rw [WrittenGroup.bytes, BitpackingWrite.bytes, List.length_append]
  refine Nat.dvd_add (header_aligned g.call) ?_
  by_cases h : g.call.IsPacked
  · rw [payload_length h hw, Nat.mul_assoc]
    exact Nat.dvd_mul_right_of_dvd (alignment_dvd type).2 _
  · rw [payload_of_not_packed h]
    exact Nat.dvd_zero _

theorem dataBytes_aligned (h : ∀ g ∈ groups, g.call.width ≤ type.bits) :
    min type.width.bytes 4 ∣ (dataBytes kernel groups).length := by
  induction groups with
  | nil => exact Nat.dvd_zero _
  | cons g groups ih =>
      rw [dataBytes, List.flatMap_cons, List.length_append]
      exact Nat.dvd_add (bytes_aligned (h g List.mem_cons_self))
        (ih fun g' hg' => h g' (List.mem_cons_of_mem _ hg'))

theorem isPacked_iff (w : BitpackingWrite type) :
    (w.mode = .for_ ∨ w.mode = .deltaFor) ↔ w.IsPacked := by
  cases w <;> simp [BitpackingWrite.mode, BitpackingWrite.IsPacked]

theorem Opened.groupEnd {s : BitpackingScanState type} {address : Nat}
    (ho : Opened kernel s segment groups address) {i : Nat} {g : WrittenGroup type}
    (hg : groups[i]? = some g) :
    ∃ groupEnd, (if i + 1 < s.groupCount then
        (s.getGroupMetadata (i + 1)).map BitpackingMetadata.offset
      else .ok s.metadataTableStart) = .ok groupEnd ∧
      headerSize + (dataBytes kernel (groups.take i)).length + (g.bytes kernel).length ≤ groupEnd ∧
      groupEnd ≤ s.metadataTableStart := by
  have hsplit := congrArg List.length (@dataBytes_split _ kernel _ _ _ hg)
  rw [List.length_append, List.length_append] at hsplit
  have hle := (le_alignValue (headerSize + (dataBytes kernel groups).length)).1
  rw [ho.groupCount, ho.tableStart]
  by_cases hlast : i + 1 < groups.length
  · obtain ⟨g', hg'⟩ : ∃ g', groups[i + 1]? = some g' := ⟨_, List.getElem?_eq_getElem hlast⟩
    have hsucc := congrArg List.length (@dataBytes_take_succ _ kernel _ _ _ hg)
    have hsplit' := congrArg List.length (@dataBytes_split _ kernel _ _ _ hg')
    rw [List.length_append] at hsucc
    rw [List.length_append, List.length_append] at hsplit'
    rw [if_pos hlast, ho.table _ _ hg']
    exact ⟨_, rfl, by simp only; omega, by simp only; omega⟩
  · rw [if_neg hlast]
    exact ⟨_, rfl, by omega, Nat.le_refl _⟩

theorem loadGroup_ok {s : BitpackingScanState type} {address : Nat}
    (h : SegmentHolds kernel segment groups) (hgroups : SegmentGroups groups)
    (haddress : 4 ∣ address) (ho : Opened kernel s segment groups address) {i : Nat}
    {g : WrittenGroup type} (hg : groups[i]? = some g) :
    ∃ cur, s.loadGroup i = .ok cur ∧ cur.Holds kernel g i ∧ cur.offset = 0 := by
  have hmem := List.mem_of_getElem? hg
  have hwidth := (hgroups.encodes g hmem).width
  have hheader : headerSize = 8 := rfl
  obtain ⟨start, hstart⟩ : ∃ start,
      start = headerSize + (dataBytes kernel (groups.take i)).length := ⟨_, rfl⟩
  obtain ⟨groupEnd, hend, hle, htable⟩ := ho.groupEnd hg
  rw [← hstart] at hle
  let r : CompressionSegmentReader := ⟨address + headerSize + (start - headerSize),
    fun j => segment.data (headerSize + (start - headerSize + j)), groupEnd - start, 0,
    "bitpacking group data"⟩
  have hsub : s.reader.getSubReader (start - headerSize) (groupEnd - start)
      "bitpacking group data" = .ok r := by
    rw [ho.reader, CompressionSegmentReader.getSubReader, CompressionSegmentReader.checkRange,
      if_neg (by simp only; omega), if_neg (by simp only; omega)]
    rfl
  have hnext : r.Next (g.call.header ++ g.call.payload kernel g.rows.length) := by
    refine ⟨?_, ?_⟩
    · simp only [r]
      rw [WrittenGroup.bytes, BitpackingWrite.bytes] at hle
      omega
    · have hshift : (fun j => segment.data (headerSize + (start - headerSize + j))) =
          fun j => segment.data (start + j) := by
        funext j
        congr 1
        omega
      simp only [r]
      rw [hshift, Memory.read_shift, Nat.add_zero, hstart]
      exact h.read_group hg
  obtain ⟨r', hread, hrest, haddr, hpos⟩ := readHeader_ok hnext hwidth
  have hcount : min metadataGroupSize (s.segmentCount - i * metadataGroupSize) = g.rows.length := by
    rw [ho.segmentCount]
    exact groupRowCount_eq hgroups hg
  have halign : (r'.address + r'.position) % min type.width.bytes 4 = 0 := by
    refine Nat.mod_eq_zero_of_dvd ?_
    have hdata : min type.width.bytes 4 ∣ (dataBytes kernel (groups.take i)).length :=
      dataBytes_aligned fun g' hg' =>
        (hgroups.encodes g' (List.mem_of_mem_take hg')).width
    have hfour := (alignment_dvd type).2
    have hsum : r'.address + r'.position =
        address + 4 * 2 + (dataBytes kernel (groups.take i)).length + g.call.header.length := by
      rw [haddr, hpos]
      simp only [r]
      omega
    rw [hsum]
    exact Nat.dvd_add (Nat.dvd_add (Nat.dvd_add (hfour.trans haddress)
      (Nat.dvd_mul_right_of_dvd hfour 2)) hdata) (header_aligned g.call)
  unfold loadGroup
  rw [ho.table i g hg]
  simp only [bind, Except.bind, hend, ← hstart]
  rw [if_neg (by omega)]
  simp only [hsub, hread, hcount]
  by_cases hpacked : g.call.IsPacked
  · simp only [if_pos ((isPacked_iff g.call).mpr hpacked), getRequiredSize_group]
    have hlen : (g.call.payload kernel g.rows.length).length = _ :=
      payload_length hpacked hwidth g.rows.length
    have hmul : algorithmGroups g.rows.length * (4 * g.call.width) =
        (g.call.payload kernel g.rows.length).length := by
      rw [hlen, Nat.mul_comm]
    simp only [hmul]
    have hgroupsPos : 0 < algorithmGroups g.rows.length := by
      have hrows := (hgroups.count g hmem).1
      simp only [algorithmGroups, algorithmGroupSize]
      split <;> omega
    by_cases h0 : g.call.width = 0
    · have hzero : ¬ (g.call.payload kernel g.rows.length).length > 0 := by
        rw [hlen, h0]
        omega
      rw [if_neg hzero]
      refine ⟨_, rfl, ⟨rfl, rfl, Nat.zero_le _, rfl, rfl, rfl, rfl, fun _ => ?_⟩, rfl⟩
      exact unpacks_payload hpacked hwidth rfl rfl fun hne => absurd h0 hne
    · have hpos' : (g.call.payload kernel g.rows.length).length > 0 := by
        rw [hlen]
        exact Nat.mul_pos (Nat.mul_pos (by decide) (Nat.pos_of_ne_zero h0)) hgroupsPos
      rw [if_pos hpos', CompressionSegmentReader.readBytesAligned_ok hrest halign]
      refine ⟨_, rfl, ⟨rfl, rfl, Nat.zero_le _, rfl, rfl, rfl, rfl, fun _ => ?_⟩, rfl⟩
      exact unpacks_payload hpacked hwidth rfl rfl fun _ => rfl
  · simp only [if_neg (mt (isPacked_iff g.call).mp hpacked), Nat.zero_mul]
    rw [if_neg (Nat.lt_irrefl 0)]
    exact ⟨_, rfl, ⟨rfl, rfl, Nat.zero_le _, rfl, rfl, rfl, rfl, fun hp => absurd hp hpacked⟩, rfl⟩

end BitpackingScanState

end MiniDuck
