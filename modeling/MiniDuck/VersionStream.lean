import MiniDuck.SwarWord
import MiniDuck.VectorInfo

/-!
# Delete information on disk

A checkpoint writes for each vector with deletes one of three forms: nothing
but a tag where no row is deleted, the tag of a constant where all are, and
else a mask of the deleted rows. The mask has three forms of its own: the words,
or a list of the valid or of the invalid rows, whichever is shortest. Each
writer has a reader and a lemma that reads back what was written in front of
any rest: `ValidityMask.read_write` for masks, `VectorInfo.read_write` for
vectors. What survives of a vector is which of its rows were deleted below the
bound of the checkpoint.
-/

namespace MiniDuck

inductive ReadException
  | io (text : String)
  | dataCorruption (text : String)
  | serialization (text : String)
  deriving Repr, DecidableEq

/-! ## Reading bytes -/

/-- `ReadData`: the next bytes of the stream, and the rest of it. -/
def readData (size : Nat) (bytes : List UInt8) : Except ReadException (List UInt8 × List UInt8) :=
  if bytes.length < size then .error (.io "No more data remaining in MetadataReader")
  else .ok (bytes.take size, bytes.drop size)

/-- `Read` of an unsigned integer. -/
def readWord (size : Nat) (bytes : List UInt8) : Except ReadException (Nat × List UInt8) :=
  match readData size bytes with
  | .error e => .error e
  | .ok (data, rest) => .ok (loadWord data, rest)

theorem readData_append {size : Nat} {data : List UInt8} (h : data.length = size)
    (rest : List UInt8) : readData size (data ++ rest) = .ok (data, rest) := by
  rw [readData, if_neg (by rw [List.length_append]; omega), List.take_left' h,
    List.drop_left' h]

theorem readWord_storeBytes {size x : Nat} (h : x < 256 ^ size) (rest : List UInt8) :
    readWord size (storeBytes size x ++ rest) = .ok (x, rest) := by
  rw [readWord, readData_append (length_storeBytes size x)]
  simp only [loadWord_storeBytes, Nat.mod_eq_of_lt h]

/-! ## Masks -/

namespace ValidityMask

def bytesPerValue (count : Nat) : Nat := if count ≥ 2 ^ 16 - 1 then 4 else 2

def validityMaskSize (count : Nat) : Nat := entryCount count * 8

def listedRows (mask : Nat → Bool) (count : Nat) (serializeValid : Bool) : List Nat :=
  (List.range count).filter fun i => mask i == serializeValid

/-- `ValidityMask::Write`; the tags are those of `ValiditySerialization`. -/
def write (mask : Nat → Bool) (count : Nat) : List UInt8 :=
  let validValues := countValid mask count
  let invalidValues := count - validValues
  let validValueSize := bytesPerValue count * validValues + 4
  let invalidValueSize := bytesPerValue count * invalidValues + 4
  if validValueSize < validityMaskSize count ∨ invalidValueSize < validityMaskSize count then
    let serializeValid := decide (validValueSize < invalidValueSize)
    storeBytes 1 (if serializeValid then 1 else 2) ++
      (storeBytes 4 (min validValues invalidValues) ++
        (listedRows mask count serializeValid).flatMap (storeBytes (bytesPerValue count)))
  else
    storeBytes 1 0 ++
      (List.range (entryCount count)).flatMap fun e => storeBytes 8 (getValidityEntry mask e)

def ofWords (data : List UInt8) (i : Nat) : Bool :=
  (loadWord ((data.drop (i / bitsPerValue * 8)).take 8)).testBit (i % bitsPerValue)

def readRows (count : Nat) (isValid : Bool) :
    Nat → (Nat → Bool) → List UInt8 → Except ReadException ((Nat → Bool) × List UInt8)
  | 0, mask, bytes => .ok (mask, bytes)
  | k + 1, mask, bytes =>
      match readWord (bytesPerValue count) bytes with
      | .error e => .error e
      | .ok (index, rest) =>
          if index ≥ count then
            .error (.dataCorruption
              s!"Corrupted validity mask: index {index} exceeds the mask size of {count}")
          else readRows count isValid k (Function.update mask index isValid) rest

def read (count : Nat) (bytes : List UInt8) :
    Except ReadException ((Nat → Bool) × List UInt8) :=
  match readWord 1 bytes with
  | .error e => .error e
  | .ok (flag, rest) =>
      if flag = 0 then
        match readData (validityMaskSize count) rest with
        | .error e => .error e
        | .ok (data, rest) => .ok (ofWords data, rest)
      else if flag = 1 ∨ flag = 2 then
        match readWord 4 rest with
        | .error e => .error e
        | .ok (serializeCount, rest) =>
            if serializeCount > count then
              .error (.dataCorruption
                s!"Corrupted validity mask: entry count {serializeCount} exceeds the mask size of {count}")
            else
              readRows count (flag = 1) serializeCount
                (fun i => if flag = 1 then decide (count ≤ i) else true) rest
      else
        .error (.dataCorruption
          s!"Corrupted validity mask: unrecognized serialization type {flag}")

/-! ### Reading back -/

theorem foldl_update_apply (value : Bool) (r : Nat) :
    (rows : List Nat) → (mask : Nat → Bool) →
    rows.foldl (fun mask i => Function.update mask i value) mask r =
      if r ∈ rows then value else mask r
  | [], mask => by simp
  | i :: rows, mask => by
      rw [List.foldl_cons, foldl_update_apply value r rows]
      by_cases hr : r = i
      · simp [hr]
      · simp [hr]

theorem take_drop_flatMap {size : Nat} {f : Nat → List UInt8} (hf : ∀ e, (f e).length = size) :
    (l : List Nat) → {i e : Nat} → l[i]? = some e →
    ((l.flatMap f).drop (i * size)).take size = f e
  | [], i, e, h => by simp at h
  | a :: l, 0, e, h => by
      rw [← Option.some.inj h, Nat.zero_mul, List.drop_zero, List.flatMap_cons,
        List.take_left' (hf a)]
  | a :: l, i + 1, e, h => by
      rw [List.flatMap_cons, Nat.succ_mul, Nat.add_comm, ← List.drop_drop,
        List.drop_left' (hf a)]
      exact take_drop_flatMap hf l h

theorem length_flatMap_const {size : Nat} {f : Nat → List UInt8}
    (hf : ∀ e, (f e).length = size) (l : List Nat) :
    (l.flatMap f).length = l.length * size := by
  induction l with
  | nil => simp
  | cons a l ih =>
      rw [List.flatMap_cons, List.length_append, hf, ih, List.length_cons, Nat.succ_mul]
      omega

variable {count : Nat}

theorem ofWords_words (mask : Nat → Bool) {i : Nat} (hi : i < count) :
    ofWords ((List.range (entryCount count)).flatMap fun e =>
      storeBytes 8 (getValidityEntry mask e)) i = mask i := by
  have hentry : (List.range (entryCount count))[i / bitsPerValue]? = some (i / bitsPerValue) := by
    rw [List.getElem?_range]
    simp only [entryCount, bitsPerValue]
    omega
  have hword : getValidityEntry mask (i / bitsPerValue) < 256 ^ 8 := getValidityEntry_lt mask _
  rw [ofWords, take_drop_flatMap (fun e => length_storeBytes 8 _) _ hentry, loadWord_storeBytes,
    Nat.mod_eq_of_lt hword, testBit_getValidityEntry, Nat.div_add_mod']
  simp [Nat.mod_lt i (show 0 < bitsPerValue by decide)]

theorem index_lt_pow {i : Nat} (hcount : count < 2 ^ 32) (hi : i < count) :
    i < 256 ^ bytesPerValue count := by
  rw [bytesPerValue]
  split <;> omega

theorem readRows_listed (hcount : count < 2 ^ 32) (isValid : Bool) (rest : List UInt8) :
    (rows : List Nat) → (∀ r ∈ rows, r < count) → (mask : Nat → Bool) →
    readRows count isValid rows.length mask
        (rows.flatMap (storeBytes (bytesPerValue count)) ++ rest) =
      .ok (rows.foldl (fun mask i => Function.update mask i isValid) mask, rest)
  | [], _, mask => rfl
  | r :: rows, hrows, mask => by
      have hr := hrows r List.mem_cons_self
      rw [List.length_cons, readRows, List.flatMap_cons, List.append_assoc,
        readWord_storeBytes (index_lt_pow hcount hr)]
      simp only [ge_iff_le, if_neg (Nat.not_le.mpr hr)]
      exact readRows_listed hcount isValid rest rows
        (fun x hx => hrows x (List.mem_cons_of_mem _ hx)) _

theorem length_listedRows (mask : Nat → Bool) (count : Nat) :
    (listedRows mask count true).length = countValid mask count ∧
    (listedRows mask count false).length = count - countValid mask count := by
  have hsum : (List.range count).length = _ + _ := List.length_eq_countP_add_countP mask
  rw [List.length_range] at hsum
  rw [countValid_eq, listedRows, listedRows, ← List.countP_eq_length_filter,
    ← List.countP_eq_length_filter]
  have htrue : (fun i => mask i == true) = mask := by
    funext i
    cases mask i <;> rfl
  have hfalse : (fun i => mask i == false) = fun i => decide ¬ mask i = true := by
    funext i
    cases mask i <;> rfl
  rw [htrue, hfalse]
  exact ⟨rfl, by omega⟩

/-- The list of one kind of rows gives back the mask. -/
theorem foldl_listedRows (mask : Nat → Bool) {i : Nat} (hi : i < count) (isValid : Bool) :
    (listedRows mask count isValid).foldl (fun mask i => Function.update mask i isValid)
      (fun i => if isValid then decide (count ≤ i) else true) i = mask i := by
  rw [foldl_update_apply]
  have hmem : i ∈ listedRows mask count isValid ↔ mask i = isValid := by
    simp [listedRows, hi]
  by_cases hm : mask i = isValid
  · rw [if_pos (hmem.mpr hm), hm]
  · rw [if_neg fun h => hm (hmem.mp h)]
    cases isValid with
    | true =>
        have hfalse : mask i = false := by simpa using hm
        simp [hfalse, hi]
    | false =>
        have htrue : mask i = true := by simpa using hm
        simp [htrue]

theorem read_listed (hcount : count < 2 ^ 32) {rows : List Nat} (hrows : ∀ r ∈ rows, r < count)
    (hlen : rows.length ≤ count) (isValid : Bool) (rest : List UInt8) :
    read count (storeBytes 1 (if isValid then 1 else 2) ++ (storeBytes 4 rows.length ++
        (rows.flatMap (storeBytes (bytesPerValue count)) ++ rest))) =
      .ok (rows.foldl (fun mask i => Function.update mask i isValid)
        (fun i => if isValid then decide (count ≤ i) else true), rest) := by
  have hword : rows.length < 256 ^ 4 := by omega
  rw [read, readWord_storeBytes (by split <;> decide)]
  cases isValid with
  | true =>
      simp only [if_true, Nat.one_ne_zero, if_false, true_or, readWord_storeBytes hword,
        gt_iff_lt, Nat.not_lt.mpr hlen, decide_true]
      exact readRows_listed hcount true rest rows hrows _
  | false =>
      simp only [Bool.false_eq_true, if_false, OfNat.ofNat_ne_zero, OfNat.ofNat_ne_one, false_or,
        if_true, readWord_storeBytes hword, gt_iff_lt, Nat.not_lt.mpr hlen, decide_false]
      exact readRows_listed hcount false rest rows hrows _

theorem read_write (hcount : count < 2 ^ 32) (mask : Nat → Bool) (rest : List UInt8) :
    ∃ mask', read count (write mask count ++ rest) = .ok (mask', rest) ∧
      ∀ i < count, mask' i = mask i := by
  rw [write]
  split
  · next hsmall =>
      set isValid := decide (bytesPerValue count * countValid mask count + 4 <
        bytesPerValue count * (count - countValid mask count) + 4) with hdef
      have hlen := length_listedRows mask count
      have hle : (listedRows mask count isValid).length ≤ count := by
        have := List.length_filter_le (fun i => mask i == isValid) (List.range count)
        rwa [List.length_range] at this
      have hpos : 0 < bytesPerValue count := by
        rw [bytesPerValue]
        split <;> decide
      have hmin : min (countValid mask count) (count - countValid mask count) =
          (listedRows mask count isValid).length := by
        by_cases hlt : bytesPerValue count * countValid mask count + 4 <
            bytesPerValue count * (count - countValid mask count) + 4
        · rw [hdef, decide_eq_true hlt, hlen.1]
          have := Nat.lt_of_mul_lt_mul_left (Nat.lt_of_add_lt_add_right hlt)
          omega
        · rw [hdef, decide_eq_false hlt, hlen.2]
          have := Nat.le_of_mul_le_mul_left
            (Nat.le_of_add_le_add_right (Nat.not_lt.mp hlt)) hpos
          omega
      refine ⟨_, ?_, fun i hi => foldl_listedRows mask hi isValid⟩
      rw [List.append_assoc, List.append_assoc, hmin]
      refine read_listed hcount (fun r hr => ?_) hle isValid rest
      exact List.mem_range.mp (List.mem_filter.mp hr).1
  · refine ⟨_, ?_, fun i hi => ofWords_words mask hi⟩
    rw [List.append_assoc, read, readWord_storeBytes (by decide)]
    simp only [if_true]
    rw [readData_append]
    rw [length_flatMap_const (fun e => length_storeBytes 8 _), List.length_range]
    rfl

end ValidityMask

/-! ## Vectors -/

namespace VectorInfo

inductive ChunkInfoType
  | constantInfo
  | vectorInfo
  | emptyInfo
  deriving Repr, DecidableEq

def ChunkInfoType.tag : ChunkInfoType → Nat
  | .constantInfo => 0
  | .vectorInfo => 1
  | .emptyInfo => 2

/-- `DConstants::INVALID_INDEX`, the transaction id of a checkpoint. -/
def invalidIndex : Nat := 2 ^ 64 - 1

def checkpointScan (bound : VisibilityBound) : ScanOptions :=
  ⟨⟨invalidIndex, bound⟩, .standard, .standard⟩

def deletedRows (s : Selection) : Nat → Bool :=
  (List.range s.count).foldl
    (fun mask i => Function.update mask (s.selVector.getD (fun _ => 0) i) false) fun _ => true

/-- `ChunkVectorInfo::Write`, for the vector that begins at row `start`. -/
def write (info : VectorInfo) (start : Nat) (bound : VisibilityBound) : List UInt8 :=
  let sel := info.getSelVector (checkpointScan bound) (some fun _ => 0) standardVectorSize
  if sel.count = standardVectorSize then storeBytes 1 ChunkInfoType.emptyInfo.tag
  else if sel.count = 0 then
    storeBytes 1 ChunkInfoType.constantInfo.tag ++ storeBytes 8 start
  else
    storeBytes 1 ChunkInfoType.vectorInfo.tag ++
      (storeBytes 8 start ++ ValidityMask.write (deletedRows sel) standardVectorSize)

def corruptedMask : String :=
  "Partial-delete vector info mask marks either all rows deleted or all rows alive, but a " ++
    "VECTOR_INFO block must always encode a partial delete. The database file may be corrupted."

/-- `ChunkVectorInfo::Read`. The first row of the vector is read and not kept. -/
def read (bytes : List UInt8) : Except ReadException (Option VectorInfo × List UInt8) :=
  match readWord 1 bytes with
  | .error e => .error e
  | .ok (type, rest) =>
      if type = ChunkInfoType.emptyInfo.tag then .ok (none, rest)
      else if type = ChunkInfoType.constantInfo.tag then
        match readWord 8 rest with
        | .error e => .error e
        | .ok (_, rest) => .ok (some ⟨.constant 0, ⟨.constant 0⟩, false⟩, rest)
      else if type = ChunkInfoType.vectorInfo.tag then
        match readWord 8 rest with
        | .error e => .error e
        | .ok (_, rest) =>
            match ValidityMask.read standardVectorSize rest with
            | .error e => .error e
            | .ok (mask, rest) =>
                if ValidityMask.countValid mask standardVectorSize = standardVectorSize ∨
                    ValidityMask.countValid mask standardVectorSize = 0 then
                  .error (.dataCorruption corruptedMask)
                else .ok (some ⟨.constant 0, ⟨.masked mask 0⟩, false⟩, rest)
      else .error (.serialization "Could not deserialize Chunk Info Type: unrecognized type")

/-! ### Reading back -/

/-- A reader that sees the rows stamped 0 and does not take the marker of
undeleted rows for a delete. -/
structure Ordinary (view : SnapshotView) : Prop where
  seesZero : view.sees 0 = true
  markerAlive : view.sees notDeletedId = false

/-- What a vector that was read shows; a missing one shows every row. -/
def shows (info : Option VectorInfo) (view : SnapshotView) (r : Nat) : Bool :=
  match info with
  | none => true
  | some info => info.fetch view r

/-- No transaction has inserted or deleted a row of the vector that the bound
does not separate: the inserts lie below it, and no delete id is an impossible one. -/
structure Writable (info : VectorInfo) (bound : VisibilityBound) : Prop where
  inserts : ∀ r < standardVectorSize, info.insertId r < bound.value
  deletes : ∀ r < standardVectorSize, info.deleteId r ≤ notDeletedId

theorem Writable.isVisible {info : VectorInfo} {bound : VisibilityBound}
    (h : info.Writable bound) {r : Nat} (hr : r < standardVectorSize) :
    info.isVisible (checkpointScan bound) r = !decide (info.deleteId r < bound.value) := by
  have hins := h.inserts r hr
  have hdel := h.deletes r hr
  have hne : (info.deleteId r == invalidIndex) = false := by
    rw [beq_eq_false_iff_ne]
    simp only [notDeletedId, invalidIndex] at hdel ⊢
    omega
  simp [VectorInfo.isVisible, accepts, checkpointScan, InsertedScanType.useInsertedVersion,
    DeletedScanType.isDeleted, SnapshotView.sees, hins, hne]
  rfl

theorem deletedRows_apply {s : Selection} {rows : List Nat} (sel : Nat → Nat)
    (hsel : s.selVector = some sel) (hrows : (List.range s.count).map sel = rows) (r : Nat) :
    deletedRows s r = !decide (r ∈ rows) := by
  have hfold : deletedRows s =
      rows.foldl (fun mask i => Function.update mask i false) fun _ => true := by
    rw [deletedRows, ← hrows, List.foldl_map, hsel]
    rfl
  rw [hfold, ValidityMask.foldl_update_apply]
  by_cases hr : r ∈ rows
  · simp [hr]
  · simp [hr]

/-- A vector is read back as its rows deleted below the bound. -/
theorem read_write {info : VectorInfo} {bound : VisibilityBound}
    (hbound : bound.value ≤ notDeletedId) (h : info.Writable bound) {start : Nat}
    (hstart : start < 2 ^ 64) (rest : List UInt8) :
    ∃ result, read (info.write start bound ++ rest) = .ok (result, rest) ∧
      ∀ view, Ordinary view → ∀ r < standardVectorSize,
        shows result view r = !decide (info.deleteId r < bound.value) := by
  have hmarker : info.MarkerUncounted (checkpointScan bound) := by
    intro _
    have hne : (notDeletedId == invalidIndex) = false := by decide
    simp [checkpointScan, DeletedScanType.isDeleted, SnapshotView.sees, Nat.not_lt.mpr hbound, hne]
  have hsel := info.getSelVector_selects (checkpointScan bound) (some fun _ => 0)
    standardVectorSize hmarker
  have hsome := info.getSelVector_isSome (checkpointScan bound) (some fun _ => 0)
    standardVectorSize
  rw [write]
  set s := info.getSelVector (checkpointScan bound) (some fun _ => 0) standardVectorSize
  set rows := (List.range standardVectorSize).filter (info.isVisible (checkpointScan bound))
  have hmem : ∀ r < standardVectorSize, r ∈ rows ↔ ¬ info.deleteId r < bound.value := by
    intro r hr
    simp [rows, hr, h.isVisible hr]
  have hle : rows.length ≤ standardVectorSize := by
    have := List.length_filter_le (info.isVisible (checkpointScan bound))
      (List.range standardVectorSize)
    rwa [List.length_range] at this
  have hcount := hsel.count_eq
  split
  · next hfull =>
      refine ⟨none, ?_, fun view _ r hr => ?_⟩
      · rw [read, readWord_storeBytes (by decide)]
        rfl
      · have hall := List.length_filter_eq_length_iff.mp
          ((hcount.symm.trans hfull).trans List.length_range.symm)
        have hvis := hall r (List.mem_range.mpr hr)
        rw [h.isVisible hr] at hvis
        exact hvis.symm
  · split
    · next hnone =>
        refine ⟨some ⟨.constant 0, ⟨.constant 0⟩, false⟩, ?_, fun view hview r hr => ?_⟩
        · rw [List.append_assoc, read, readWord_storeBytes (by decide)]
          simp only [ChunkInfoType.tag, OfNat.zero_ne_ofNat, if_false, if_true]
          rw [readWord_storeBytes hstart]
        · have hrows : rows = [] := List.eq_nil_of_length_eq_zero (hcount.symm.trans hnone)
          have hdel : info.deleteId r < bound.value := by
            have := (hmem r hr).not.mp (by simp [hrows])
            exact not_not.mp this
          simp [shows, fetch, hdel]
    · next hfull hnone =>
        obtain ⟨sel, hsome⟩ := Option.isSome_iff_exists.mp hsome
        have hlisted := hsel.listed (by omega) sel hsome
        have hdeleted : ∀ r < standardVectorSize,
            deletedRows s r = decide (info.deleteId r < bound.value) := by
          intro r hr
          rw [deletedRows_apply sel hsome hlisted, decide_eq_decide.mpr (hmem r hr), decide_not,
            Bool.not_not]
        obtain ⟨mask, hread, hmask⟩ := ValidityMask.read_write (show standardVectorSize < 2 ^ 32 by
          decide) (deletedRows s) rest
        have hvalid : ValidityMask.countValid mask standardVectorSize =
            standardVectorSize - s.count := by
          have hsum : (List.range standardVectorSize).length = _ + _ :=
            List.length_eq_countP_add_countP (info.isVisible (checkpointScan bound))
          have hsame : (List.range standardVectorSize).countP mask =
              (List.range standardVectorSize).countP
                fun r => decide ¬ info.isVisible (checkpointScan bound) r = true := by
            refine List.countP_congr fun r hr => ?_
            have hlt := List.mem_range.mp hr
            rw [hmask r hlt, hdeleted r hlt, h.isVisible hlt]
            simp
          rw [ValidityMask.countValid_eq, hsame, hcount]
          rw [List.length_range] at hsum
          simp only [rows, ← List.countP_eq_length_filter]
          omega
        refine ⟨some ⟨.constant 0, ⟨.masked mask 0⟩, false⟩, ?_, fun view hview r hr => ?_⟩
        · rw [List.append_assoc, List.append_assoc, read, readWord_storeBytes (by decide)]
          simp only [ChunkInfoType.tag, OfNat.one_ne_ofNat, Nat.one_ne_zero, if_false, if_true]
          rw [readWord_storeBytes hstart]
          simp only [hread]
          rw [if_neg]
          rw [hvalid]
          omega
        · show (view.sees 0 && !view.sees (if mask r then 0 else notDeletedId)) = _
          rw [hmask r hr, hdeleted r hr]
          by_cases hlt : info.deleteId r < bound.value
          · simp [hlt, hview.seesZero]
          · simp [hlt, hview.seesZero, hview.markerAlive]

end VectorInfo

end MiniDuck
