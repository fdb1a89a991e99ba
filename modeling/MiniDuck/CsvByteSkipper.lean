import MiniDuck.SwarWord
import MiniDuck.CsvDelimiter

/-!
# Skipping bytes of a CSV buffer

`CSVByteSkipper` looks for the bytes that can change the state of the CSV
reader, 64 bytes at a time. Its mask has a bit for every byte that matches a
stop pattern (`testBit_maybeAnyMask`), and may have bits for others, as the
borrow of a zero byte can flag the byte above it. So what is skipped matches
no pattern (`skipToCandidate_spec`), or is skipped by the table as well
(`skipToStop_spec`), and does not change the state (`skipped_transition`).
-/

namespace MiniDuck

namespace SwarWord

/-- A word with every byte set to `byte`. -/
def repeatByte (byte : UInt8) : Nat := lsb * byte.toNat

def maybeZeroBytes (w : Nat) : Nat := (w + (2 ^ 64 - lsb)) % 2 ^ 64 &&& notWord w &&& msb

def packMultiplier : Nat := 0x0102040810204080

/-- Packs the flags of a mask into the low eight bits. -/
def packFlags (mask : Nat) : Nat := mask / 2 ^ 7 * packMultiplier % 2 ^ 64 / 2 ^ 56

end SwarWord

namespace SwarBlock

def size : Nat := 64

/-- A byte matches when it equals `value` on the bits set in `mask`. -/
structure BytePattern where
  value : Nat
  mask : Nat
  deriving Repr, DecidableEq

namespace BytePattern

def ofMask (value mask : UInt8) : BytePattern :=
  ⟨SwarWord.repeatByte (value &&& mask), SwarWord.repeatByte mask⟩

def byte (byte : UInt8) : BytePattern := ofMask byte 0xff

/-- Matches both bytes, and every byte that agrees with them on the bits where they agree. -/
def either (a b : UInt8) : BytePattern := ofMask a (~~~(a ^^^ b))

end BytePattern

/-- The flags of the bytes of a word that match a pattern. -/
def matchFlags (patterns : List BytePattern) (word : Nat) : Nat :=
  patterns.foldl (fun flags p =>
    flags ||| SwarWord.maybeZeroBytes ((word &&& p.mask) ^^^ p.value)) 0

/-- `MaybeAnyMask`, bit `i` for byte `i` of a block of 64 bytes. -/
def maybeAnyMask (block : List UInt8) (patterns : List BytePattern) : Nat :=
  (List.range 8).foldl (fun mask i => mask |||
    SwarWord.packFlags (matchFlags patterns (loadWord ((block.drop (8 * i)).take 8))) <<< (8 * i)) 0

end SwarBlock

/-! ## No match is missed -/

namespace SwarWord

theorem repeatByte_eq (b : UInt8) : repeatByte b = loadWord (List.replicate 8 b) := by
  simp only [repeatByte, lsb, List.replicate, loadWord_cons, loadWord_nil]
  omega

variable {i : Nat}

theorem loadWord_byte {bytes : List UInt8} (hi : i < bytes.length) :
    loadWord bytes / 256 ^ i % 256 = (bytes[i]).toNat := by
  induction bytes generalizing i with
  | nil => exact absurd hi (Nat.not_lt_zero _)
  | cons b bytes ih =>
      have hb : b.toNat < 256 := b.toNat_lt
      rw [loadWord_cons]
      cases i with
      | zero =>
          rw [Nat.pow_zero, Nat.div_one, List.getElem_cons_zero]
          omega
      | succ i =>
          have hdiv : (256 * loadWord bytes + b.toNat) / 256 = loadWord bytes := by omega
          rw [List.getElem_cons_succ, ← ih (Nat.lt_of_succ_lt_succ hi), Nat.pow_succ',
            ← Nat.div_div_eq_div_mul, hdiv]

theorem testBit_notWord {w : Nat} (hw : w < 2 ^ 64) (hi : i < 64) :
    (notWord w).testBit i = !w.testBit i := by
  have hsub : notWord w = 2 ^ 64 - (w + 1) := by
    rw [notWord]
    omega
  rw [hsub, Nat.testBit_two_pow_sub_succ hw, decide_eq_true hi, Bool.true_and]

theorem testBit_of_div {w : Nat} (h : w / 2 ^ i % 2 = 1) : w.testBit i = true := by
  rw [Nat.testBit_eq_decide_div_mod_eq]
  exact decide_eq_true h

/-- The subtraction borrows from the high bit of a zero byte. -/
theorem borrow_zeroByte {w : Nat} (hi : i < 8) (h : w / 256 ^ i % 256 = 0) :
    (w + (2 ^ 64 - lsb)) % 2 ^ 64 / 2 ^ (8 * i + 7) % 2 = 1 ∧ w / 2 ^ (8 * i + 7) % 2 = 0 := by
  unfold lsb
  interval_cases i <;> norm_num at h ⊢ <;> omega

theorem testBit_msb (hi : i < 8) : msb.testBit (8 * i + 7) = true := by
  have hall : ∀ i < 8, msb.testBit (8 * i + 7) = true := by decide
  exact hall i hi

theorem testBit_maybeZeroBytes {w i : Nat} (hw : w < 2 ^ 64) (hi : i < 8)
    (h : w / 256 ^ i % 256 = 0) : (maybeZeroBytes w).testBit (8 * i + 7) = true := by
  obtain ⟨hborrow, hzero⟩ := borrow_zeroByte hi h
  have hclear : w.testBit (8 * i + 7) = false := by
    rw [Nat.testBit_eq_decide_div_mod_eq, hzero]
    rfl
  rw [maybeZeroBytes, Nat.testBit_and, Nat.testBit_and, testBit_of_div hborrow,
    testBit_notWord hw (by omega), hclear, testBit_msb hi]
  rfl

theorem maybeZeroBytes_and_msb (w : Nat) : maybeZeroBytes w &&& msb = maybeZeroBytes w := by
  rw [maybeZeroBytes, Nat.and_assoc, Nat.and_self]

/-! ## Packing -/

def flagWord (flags : List Bool) : Nat :=
  loadWord (flags.map fun flag => if flag then 0x80 else 0)

theorem packFlags_eight : ∀ a b c d e f g h : Bool, ∀ i < 8,
    (packFlags (flagWord [a, b, c, d, e, f, g, h])).testBit i =
      [a, b, c, d, e, f, g, h].getD i false := by
  decide +kernel

theorem flagWord_testBit : ∀ a b c d e f g h : Bool, ∀ i < 8,
    (flagWord [a, b, c, d, e, f, g, h]).testBit (8 * i + 7) =
      [a, b, c, d, e, f, g, h].getD i false := by
  decide +kernel

theorem and_high (b : UInt8) :
    b &&& 0x80 = if b.toNat.testBit 7 then (0x80 : UInt8) else 0 := by
  have hall : ∀ b : BitVec 8, b &&& 0x80#8 = if b.toNat.testBit 7 then 0x80#8 else 0#8 := by
    decide
  apply UInt8.toBitVec_inj.mp
  refine (hall b.toBitVec).trans ?_
  rw [UInt8.toNat_toBitVec]
  split <;> rfl

theorem testBit_packFlags {flags : Nat} (hlt : flags < 2 ^ 64) (hmsb : flags &&& msb = flags)
    (hi : i < 8) : (packFlags flags).testBit i = flags.testBit (8 * i + 7) := by
  have hload : loadWord (storeBytes 8 flags) = flags := by
    rw [loadWord_storeBytes]
    exact Nat.mod_eq_of_lt hlt
  have hflags : flags = flagWord ((storeBytes 8 flags).map fun b => b.toNat.testBit 7) := by
    have hand := and_replicate (length_storeBytes 8 flags) 0x80
    rw [hload, ← msb_eq, hmsb] at hand
    rw [flagWord, List.map_map]
    refine hand.trans (congrArg loadWord (List.map_congr_left fun b _ => ?_))
    exact and_high b
  rw [hflags]
  simp only [storeBytes, List.map_cons, List.map_nil]
  rw [packFlags_eight _ _ _ _ _ _ _ _ i hi, flagWord_testBit _ _ _ _ _ _ _ _ i hi]

end SwarWord

namespace SwarBlock

open SwarWord

/-! ## The mask of a block -/

theorem foldl_or_testBit {β : Type} (f : β → Nat) {i : Nat} (xs : List β) (mask : Nat) :
    (xs.foldl (fun mask x => mask ||| f x) mask).testBit i =
      (mask.testBit i || xs.any fun x => (f x).testBit i) := by
  induction xs generalizing mask with
  | nil => rw [List.foldl_nil, List.any_nil, Bool.or_false]
  | cons x xs ih => rw [List.foldl_cons, ih, Nat.testBit_or, List.any_cons, Bool.or_assoc]

theorem foldl_or_lt {β : Type} (f : β → Nat) {n : Nat} {xs : List β} (hf : ∀ x ∈ xs, f x < 2 ^ n)
    {mask : Nat} (hmask : mask < 2 ^ n) : xs.foldl (fun mask x => mask ||| f x) mask < 2 ^ n := by
  induction xs generalizing mask with
  | nil => exact hmask
  | cons x xs ih =>
      obtain ⟨hx, hxs⟩ := List.forall_mem_cons.mp hf
      exact ih hxs (Nat.or_lt_two_pow hmask hx)

theorem foldl_or_and {β : Type} (f : β → Nat) {m : Nat} (hf : ∀ x, f x &&& m = f x) (xs : List β)
    {mask : Nat} (hmask : mask &&& m = mask) :
    xs.foldl (fun mask x => mask ||| f x) mask &&& m =
      xs.foldl (fun mask x => mask ||| f x) mask := by
  induction xs generalizing mask with
  | nil => exact hmask
  | cons x xs ih =>
      refine ih ?_
      rw [Nat.and_or_distrib_right, hmask, hf]

theorem maybeZeroBytes_lt (w : Nat) : maybeZeroBytes w < 2 ^ 64 := by
  rw [← maybeZeroBytes_and_msb]
  exact lt_of_le_of_lt Nat.and_le_right (by decide)

theorem matchFlags_lt (patterns : List BytePattern) (word : Nat) :
    matchFlags patterns word < 2 ^ 64 :=
  foldl_or_lt _ (fun _ _ => maybeZeroBytes_lt _) (Nat.two_pow_pos 64)

theorem matchFlags_and_msb (patterns : List BytePattern) (word : Nat) :
    matchFlags patterns word &&& msb = matchFlags patterns word :=
  foldl_or_and _ (fun _ => maybeZeroBytes_and_msb _) patterns (Nat.zero_and msb)

def Matches (value mask b : UInt8) : Prop := b &&& mask = value &&& mask

theorem testBit_matchFlags {patterns : List BytePattern} {value mask : UInt8}
    (hp : BytePattern.ofMask value mask ∈ patterns) {bytes : List UInt8} (hlen : bytes.length = 8)
    {i : Nat} (hi : i < bytes.length) (hmatch : Matches value mask (bytes[i])) :
    (matchFlags patterns (loadWord bytes)).testBit (8 * i + 7) = true := by
  have hword : (loadWord bytes &&& (BytePattern.ofMask value mask).mask) ^^^
      (BytePattern.ofMask value mask).value =
        loadWord (bytes.map fun b => (b &&& mask) ^^^ (value &&& mask)) := by
    rw [BytePattern.ofMask, repeatByte_eq, repeatByte_eq, and_replicate hlen,
      loadWord_xor (by rw [List.length_map, List.length_replicate, hlen])]
    have hzip := zipWith_replicate (· ^^^ ·) (value &&& mask) (bytes.map (· &&& mask))
    rw [List.length_map, hlen] at hzip
    rw [hzip, List.map_map]
    rfl
  rw [matchFlags, foldl_or_testBit, Bool.or_eq_true_iff]
  refine .inr (List.any_eq_true.mpr ⟨_, hp, ?_⟩)
  rw [hword]
  refine testBit_maybeZeroBytes ?_ (hlen ▸ hi) ?_
  · have hlt := loadWord_lt (bytes.map fun b => (b &&& mask) ^^^ (value &&& mask))
    rwa [List.length_map, hlen] at hlt
  · rw [loadWord_byte (by rwa [List.length_map]), List.getElem_map, hmatch, UInt8.xor_self]
    rfl

theorem testBit_maybeAnyMask {patterns : List BytePattern} {value mask : UInt8}
    (hp : BytePattern.ofMask value mask ∈ patterns) {block : List UInt8}
    (hlen : block.length = 64) {j : Nat} (hj : j < block.length)
    (hmatch : Matches value mask (block[j])) :
    (maybeAnyMask block patterns).testBit j = true := by
  have hword : ((block.drop (8 * (j / 8))).take 8).length = 8 := by
    rw [List.length_take, List.length_drop]
    omega
  have hindex : j % 8 < ((block.drop (8 * (j / 8))).take 8).length := by
    rw [hword]
    exact Nat.mod_lt j (by decide)
  have hbyte : ((block.drop (8 * (j / 8))).take 8)[j % 8] = block[j] := by
    rw [List.getElem_take, List.getElem_drop]
    congr 1
    exact Nat.div_add_mod j 8
  rw [maybeAnyMask, foldl_or_testBit, Bool.or_eq_true_iff]
  refine .inr (List.any_eq_true.mpr ⟨j / 8, List.mem_range.mpr (by omega), ?_⟩)
  have hge : 8 * (j / 8) ≤ j := Nat.mul_div_le j 8
  have hsub : j - 8 * (j / 8) = j % 8 := by omega
  rw [Nat.testBit_shiftLeft, decide_eq_true hge, Bool.true_and, hsub,
    testBit_packFlags (matchFlags_lt _ _) (matchFlags_and_msb _ _) (Nat.mod_lt j (by decide))]
  exact testBit_matchFlags hp hword hindex (by rwa [hbyte])

theorem maybeAnyMask_lt (block : List UInt8) (patterns : List BytePattern) :
    maybeAnyMask block patterns < 2 ^ 64 := by
  refine foldl_or_lt _ (fun i hi => ?_) (Nat.two_pow_pos 64)
  have hi := List.mem_range.mp hi
  have hpack (flags : Nat) : packFlags flags < 2 ^ 8 := by
    rw [packFlags]
    omega
  rw [Nat.shiftLeft_eq]
  refine lt_of_lt_of_le (Nat.mul_lt_mul_of_pos_right (hpack _) (Nat.two_pow_pos _)) ?_
  rw [← Nat.pow_add]
  exact Nat.pow_le_pow_right (by decide) (by omega)

/-! ## The first candidate -/

theorem testBit_of_lt_trailingZeros {n w i : Nat} (h : i < trailingZeros n w) :
    w.testBit i = false := by
  induction n generalizing w i with
  | zero => exact absurd h (Nat.not_lt_zero i)
  | succ n ih =>
      rw [trailingZeros] at h
      split at h
      · exact absurd h (Nat.not_lt_zero i)
      · rename_i heven
        cases i with
        | zero =>
            rw [Nat.testBit_zero]
            exact decide_eq_false heven
        | succ i =>
            rw [Nat.testBit_succ]
            exact ih (Nat.lt_of_succ_lt_succ h)

theorem testBit_trailingZeros {n w : Nat} (hlt : w < 2 ^ n) (hne : w ≠ 0) :
    w.testBit (trailingZeros n w) = true := by
  induction n generalizing w with
  | zero => omega
  | succ n ih =>
      rw [trailingZeros]
      split
      · rename_i hodd
        rw [Nat.testBit_zero]
        exact decide_eq_true hodd
      · rw [Nat.testBit_succ]
        exact ih (by omega) (by omega)

end SwarBlock

namespace Csv

open SwarBlock

namespace CSVStateMachineOptions

variable (o : CSVStateMachineOptions)

def stopPatterns : List BytePattern :=
  [.byte o.delimiterFirstByte] ++ (if o.quote ≠ 0 then [.byte o.quote] else []) ++
    [.either lineFeed Csv.carriageReturn] ++
    (if o.comment ≠ 0 then [.byte o.comment] else []) ++
    (if o.escape ≠ 0 ∧ o.escape ≠ o.quote then [.byte o.escape] else [])

end CSVStateMachineOptions

/-- `CSVByteSkipper`, with the masked block from `blockStart` up to `blockEnd`. -/
structure CSVByteSkipper where
  stopPatterns : List BytePattern
  buffer : Bytes
  blockStart : Nat
  blockEnd : Nat
  stopMask : Nat
  deriving Repr, DecidableEq

inductive SkippedTo
  | candidateFound
  | candidateNotFound
  | tail
  deriving Repr, DecidableEq

namespace CSVByteSkipper

/-- Points the skipper at a buffer, dropping the block of a previous one. -/
def setBuffer (s : CSVByteSkipper) (buffer : Bytes) : CSVByteSkipper :=
  { s with
    buffer := buffer
    blockStart := 0
    blockEnd := 0 }

def byteAt (s : CSVByteSkipper) (pos : Nat) : UInt8 := s.buffer.getD pos 0

/-- Computes the stop mask of the 64 bytes that start at `start`. -/
def maskBlock (s : CSVByteSkipper) (start : Nat) : CSVByteSkipper :=
  { s with
    stopMask := maybeAnyMask ((s.buffer.drop start).take size) s.stopPatterns
    blockStart := start
    blockEnd := start + size }

/-- The skipper with a block around `pos`, unless fewer than 64 bytes are left. -/
def blockAt (s : CSVByteSkipper) (pos : Nat) : Option CSVByteSkipper :=
  if pos < s.blockStart ∨ s.blockEnd ≤ pos then
    if s.buffer.length < pos + size then none else some (s.maskBlock pos)
  else some s

variable {s s' : CSVByteSkipper} {pos : Nat}

theorem blockAt_bounds (h : s.blockAt pos = some s') : s'.blockStart ≤ pos ∧ pos < s'.blockEnd := by
  unfold blockAt at h
  split at h
  · split at h
    · cases h
    · obtain rfl := Option.some.inj h
      exact ⟨le_refl pos, Nat.lt_add_of_pos_right (by decide)⟩
  · rename_i hin
    obtain rfl := Option.some.inj h
    omega

/-- The stop mask from `pos` on. -/
def candidates (s : CSVByteSkipper) (pos : Nat) : Nat := s.stopMask >>> (pos - s.blockStart)

def firstCandidate (s : CSVByteSkipper) (pos : Nat) : Nat :=
  pos + SwarWord.trailingZeros 64 (s.candidates pos)

/-- Where the search goes on if the block has no candidate before `limit`. -/
def resumeAt (s : CSVByteSkipper) (limit pos : Nat) : Nat :=
  min (if s.candidates pos ≠ 0 then limit else s.blockEnd) limit

theorem lt_resumeAt {limit : Nat} (hlimit : pos < limit) (hend : pos < s.blockEnd) :
    pos < s.resumeAt limit pos := by
  unfold resumeAt
  split <;> omega

def skipToCandidate (s : CSVByteSkipper) (limit pos : Nat) : CSVByteSkipper × SkippedTo × Nat :=
  if hlimit : pos < limit then
    match hblock : s.blockAt pos with
    | none => (s, .tail, pos)
    | some s' =>
        if s'.candidates pos ≠ 0 ∧ s'.firstCandidate pos < limit then
          (s', .candidateFound, s'.firstCandidate pos)
        else skipToCandidate s' limit (s'.resumeAt limit pos)
  else (s, .candidateNotFound, pos)
termination_by limit - pos
decreasing_by
  have hresume := lt_resumeAt hlimit (blockAt_bounds hblock).2
  omega

theorem le_skipToCandidate (s : CSVByteSkipper) (limit pos : Nat) :
    pos ≤ (s.skipToCandidate limit pos).2.2 := by
  fun_induction skipToCandidate s limit pos with
  | case1 => exact le_refl _
  | case2 => exact Nat.le_add_right _ _
  | case3 s pos hlimit s' hblock hnot ih =>
      exact (lt_resumeAt hlimit (blockAt_bounds hblock).2).le.trans ih
  | case4 => exact le_refl _

/-- The bytes of the buffer tail are checked one by one. -/
def skipTail (s : CSVByteSkipper) (skips : UInt8 → Bool) (toPos pos : Nat) : Nat :=
  if skips (s.byteAt pos) ∧ pos + 1 < toPos then skipTail s skips toPos (pos + 1) else pos
termination_by toPos - pos

/-- Skips every byte that `skips` skips. -/
def skipToStop (s : CSVByteSkipper) (skips : UInt8 → Bool) (toPos pos : Nat) :
    CSVByteSkipper × Nat :=
  if pos + 1 < toPos then
    match hskip : s.skipToCandidate (toPos - 1) pos with
    | (s', .tail, pos') => (s', s'.skipTail skips toPos pos')
    | (s', .candidateNotFound, pos') => (s', pos')
    | (s', .candidateFound, pos') =>
        -- a candidate that the table skips after all
        if skips (s'.byteAt pos') then s'.skipToStop skips toPos (pos' + 1) else (s', pos')
  else (s, pos)
termination_by toPos - pos
decreasing_by
  have hle := le_skipToCandidate s (toPos - 1) pos
  rw [hskip] at hle
  simp only at hle
  omega

/-! ## What is skipped -/

def Unmatched (patterns : List BytePattern) (b : UInt8) : Prop :=
  ∀ value mask, BytePattern.ofMask value mask ∈ patterns → ¬ Matches value mask b

/-- The mask belongs to a block of the buffer. -/
structure Valid (s : CSVByteSkipper) : Prop where
  block : s.blockStart < s.blockEnd → s.blockEnd = s.blockStart + 64 ∧
    s.blockEnd ≤ s.buffer.length ∧
    s.stopMask = maybeAnyMask ((s.buffer.drop s.blockStart).take 64) s.stopPatterns

structure Same (s s' : CSVByteSkipper) : Prop where
  stopPatterns : s'.stopPatterns = s.stopPatterns
  buffer : s'.buffer = s.buffer

theorem Same.refl (s : CSVByteSkipper) : Same s s := ⟨rfl, rfl⟩

theorem Same.trans {s'' : CSVByteSkipper} (h : Same s s') (h' : Same s' s'') : Same s s'' :=
  ⟨h'.stopPatterns.trans h.stopPatterns, h'.buffer.trans h.buffer⟩

theorem Same.byteAt (h : Same s s') (i : Nat) : s'.byteAt i = s.byteAt i := by
  rw [CSVByteSkipper.byteAt, CSVByteSkipper.byteAt, h.buffer]

theorem setBuffer_valid (s : CSVByteSkipper) (buffer : Bytes) : (s.setBuffer buffer).Valid :=
  ⟨fun h => absurd h (Nat.lt_irrefl 0)⟩

theorem blockAt_valid (h : s.Valid) (hs' : s.blockAt pos = some s') : s'.Valid ∧ Same s s' := by
  unfold blockAt at hs'
  split at hs'
  · split at hs'
    · cases hs'
    · rename_i hsize
      obtain rfl := Option.some.inj hs'
      exact ⟨⟨fun _ => ⟨rfl, not_lt.mp hsize, rfl⟩⟩, ⟨rfl, rfl⟩⟩
  · obtain rfl := Option.some.inj hs'
    exact ⟨h, .refl s⟩

/-- A byte whose bit is not set matches no pattern. -/
theorem unmatched_of_testBit (h : s.Valid) {i : Nat} (hstart : s.blockStart ≤ i)
    (hend : i < s.blockEnd) (hbit : s.stopMask.testBit (i - s.blockStart) = false) :
    Unmatched s.stopPatterns (s.byteAt i) := by
  obtain ⟨hblock, hlength, hmask⟩ := h.block (by omega)
  intro value mask hp hmatch
  have hlen : ((s.buffer.drop s.blockStart).take 64).length = 64 := by
    rw [List.length_take, List.length_drop]
    omega
  have hindex : i - s.blockStart < ((s.buffer.drop s.blockStart).take 64).length := by omega
  have hbyte : ((s.buffer.drop s.blockStart).take 64)[i - s.blockStart] = s.byteAt i := by
    have hi : i < s.buffer.length := by omega
    rw [List.getElem_take, List.getElem_drop, byteAt, List.getD_eq_getElem _ _ hi]
    congr 1
    omega
  rw [hmask, testBit_maybeAnyMask hp hlen hindex (by rwa [hbyte])] at hbit
  cases hbit

/-- The bytes up to the first set bit match no pattern. -/
theorem unmatched_of_candidates (h : s.Valid) {i : Nat} (hstart : s.blockStart ≤ pos)
    (hpos : pos ≤ i) (hend : i < s.blockEnd) (hbit : (s.candidates pos).testBit (i - pos) = false) :
    Unmatched s.stopPatterns (s.byteAt i) := by
  refine unmatched_of_testBit h (hstart.trans hpos) hend ?_
  rw [candidates, Nat.testBit_shiftRight] at hbit
  have hindex : pos - s.blockStart + (i - pos) = i - s.blockStart := by omega
  rwa [hindex] at hbit

theorem firstCandidate_lt (h : s.Valid) (hstart : s.blockStart ≤ pos) (hend : pos < s.blockEnd)
    (hne : s.candidates pos ≠ 0) : s.firstCandidate pos < s.blockEnd := by
  obtain ⟨hblock, -, hmask⟩ := h.block (by omega)
  have hlt : s.stopMask < 2 ^ 64 := hmask ▸ maybeAnyMask_lt _ _
  have hshift : s.candidates pos < 2 ^ 64 := lt_of_le_of_lt (Nat.shiftRight_le _ _) hlt
  have hbit := testBit_trailingZeros hshift hne
  rw [firstCandidate]
  by_contra hge
  have hlarge : s.stopMask <
      2 ^ (pos - s.blockStart + SwarWord.trailingZeros 64 (s.candidates pos)) :=
    lt_of_lt_of_le hlt (Nat.pow_le_pow_right (by decide) (by omega))
  rw [candidates, Nat.testBit_shiftRight, ← candidates, Nat.testBit_lt_two_pow hlarge] at hbit
  cases hbit

/-- Before the search goes on, it has passed bytes that match no pattern. -/
theorem unmatched_of_resumeAt (h : s.Valid) {limit i : Nat} (hstart : s.blockStart ≤ pos)
    (hend : pos < s.blockEnd) (hnot : ¬ (s.candidates pos ≠ 0 ∧ s.firstCandidate pos < limit))
    (hpos : pos ≤ i) (hi : i < s.resumeAt limit pos) : Unmatched s.stopPatterns (s.byteAt i) := by
  unfold resumeAt at hi
  by_cases hne : s.candidates pos ≠ 0
  · rw [if_pos hne, Nat.min_self] at hi
    have hlimit : limit ≤ s.firstCandidate pos := not_lt.mp fun hlt => hnot ⟨hne, hlt⟩
    have hlt := firstCandidate_lt h hstart hend hne
    refine unmatched_of_candidates h hstart hpos (by omega) ?_
    refine testBit_of_lt_trailingZeros (n := 64) ?_
    rw [firstCandidate] at hlimit
    omega
  · rw [if_neg hne] at hi
    refine unmatched_of_candidates h hstart hpos (by omega) ?_
    rw [not_not.mp hne, Nat.zero_testBit]

theorem skipToCandidate_spec (h : s.Valid) {limit : Nat} (hpos : pos ≤ limit) :
    (s.skipToCandidate limit pos).1.Valid ∧ Same s (s.skipToCandidate limit pos).1 ∧
      (s.skipToCandidate limit pos).2.2 ≤ limit ∧
      ((s.skipToCandidate limit pos).2.1 ≠ .candidateNotFound →
        (s.skipToCandidate limit pos).2.2 < limit) ∧
      ∀ i, pos ≤ i → i < (s.skipToCandidate limit pos).2.2 →
        Unmatched s.stopPatterns (s.byteAt i) := by
  fun_induction skipToCandidate s limit pos with
  | case1 s pos hlimit hblock =>
      exact ⟨h, .refl s, hpos, fun _ => hlimit, fun i hi hi' => absurd hi (not_le.mpr hi')⟩
  | case2 s pos hlimit s₁ hblock hfound =>
      obtain ⟨hvalid, hsame⟩ := blockAt_valid h hblock
      obtain ⟨hstart, hend⟩ := blockAt_bounds hblock
      refine ⟨hvalid, hsame, hfound.2.le, fun _ => hfound.2, fun i hi hi' => ?_⟩
      have hlt := firstCandidate_lt hvalid hstart hend hfound.1
      rw [← hsame.stopPatterns, ← hsame.byteAt]
      refine unmatched_of_candidates hvalid hstart hi (lt_trans hi' hlt) ?_
      refine testBit_of_lt_trailingZeros (n := 64) ?_
      simp only [firstCandidate] at hi'
      omega
  | case3 s pos hlimit s₁ hblock hnot ih =>
      obtain ⟨hvalid, hsame⟩ := blockAt_valid h hblock
      obtain ⟨hstart, hend⟩ := blockAt_bounds hblock
      obtain ⟨hvalid', hsame', hle, hfound, hrest⟩ := ih hvalid (Nat.min_le_right _ _)
      refine ⟨hvalid', hsame.trans hsame', hle, hfound, fun i hi hi' => ?_⟩
      rw [← hsame.stopPatterns, ← hsame.byteAt]
      rcases Nat.lt_or_ge i (s₁.resumeAt limit pos) with hlt | hge
      · exact unmatched_of_resumeAt hvalid hstart hend hnot hi hlt
      · exact hrest i hge hi'
  | case4 s pos hlimit =>
      exact ⟨h, .refl s, hpos, fun hne => absurd rfl hne,
        fun i hi hi' => absurd hi (not_le.mpr hi')⟩

theorem skipTail_spec {skips : UInt8 → Bool} {toPos : Nat} (hpos : pos < toPos) :
    s.skipTail skips toPos pos < toPos ∧
      ∀ i, pos ≤ i → i < s.skipTail skips toPos pos → skips (s.byteAt i) = true := by
  fun_induction skipTail s skips toPos pos with
  | case1 pos hskip ih =>
      obtain ⟨hlt, hrest⟩ := ih hskip.2
      refine ⟨hlt, fun i hi hi' => ?_⟩
      rcases Nat.lt_or_eq_of_le hi with hi | rfl
      · exact hrest i hi hi'
      · exact hskip.1
  | case2 pos hskip => exact ⟨hpos, fun i hi hi' => absurd hi (not_le.mpr hi')⟩

theorem le_skipTail (s : CSVByteSkipper) (skips : UInt8 → Bool) (toPos pos : Nat) :
    pos ≤ s.skipTail skips toPos pos := by
  fun_induction skipTail s skips toPos pos with
  | case1 pos hskip ih => exact (Nat.le_succ pos).trans ih
  | case2 => exact le_refl _

theorem le_skipToStop (s : CSVByteSkipper) (skips : UInt8 → Bool) (toPos pos : Nat) :
    pos ≤ (s.skipToStop skips toPos pos).2 := by
  fun_induction skipToStop s skips toPos pos with
  | case1 s pos hlimit s₁ pos₁ hskip =>
      have hle := le_skipToCandidate s (toPos - 1) pos
      rw [hskip] at hle
      exact le_trans hle (le_skipTail s₁ skips toPos pos₁)
  | case2 s pos hlimit s₁ pos₁ hskip =>
      have hle := le_skipToCandidate s (toPos - 1) pos
      rwa [hskip] at hle
  | case3 s pos hlimit s₁ pos₁ hskip htable ih =>
      have hle := le_skipToCandidate s (toPos - 1) pos
      rw [hskip] at hle
      exact le_trans hle ((Nat.le_succ pos₁).trans ih)
  | case4 s pos hlimit s₁ pos₁ hskip htable =>
      have hle := le_skipToCandidate s (toPos - 1) pos
      rwa [hskip] at hle
  | case5 => exact le_refl _

/-- What is skipped matches no pattern or is skipped by the table. -/
theorem skipToStop_spec (h : s.Valid) (skips : UInt8 → Bool) {toPos : Nat} (hpos : pos ≤ toPos) :
    (s.skipToStop skips toPos pos).1.Valid ∧ Same s (s.skipToStop skips toPos pos).1 ∧
      (s.skipToStop skips toPos pos).2 ≤ toPos ∧
      ∀ i, pos ≤ i → i < (s.skipToStop skips toPos pos).2 →
        Unmatched s.stopPatterns (s.byteAt i) ∨ skips (s.byteAt i) = true := by
  have hcandidate {s : CSVByteSkipper} (h : s.Valid) {pos : Nat} (hlimit : pos + 1 < toPos) :=
    skipToCandidate_spec h (show pos ≤ toPos - 1 by omega)
  fun_induction skipToStop s skips toPos pos with
  | case1 s pos hlimit s₁ pos₁ hskip =>
      have hspec := hcandidate h hlimit
      rw [hskip] at hspec
      obtain ⟨hvalid, hsame, -, htail, hunmatched⟩ := hspec
      have hlt : pos₁ < toPos := by
        have := htail nofun
        simp only at this
        omega
      obtain ⟨hle, htable⟩ : s₁.skipTail skips toPos pos₁ < toPos ∧ _ := skipTail_spec hlt
      refine ⟨hvalid, hsame, hle.le, fun i hi hi' => ?_⟩
      rcases Nat.lt_or_ge i pos₁ with hlt | hge
      · exact .inl (hunmatched i hi hlt)
      · rw [← hsame.byteAt]
        exact .inr (htable i hge hi')
  | case2 s pos hlimit s₁ pos₁ hskip =>
      have hspec := hcandidate h hlimit
      rw [hskip] at hspec
      obtain ⟨hvalid, hsame, hle, -, hunmatched⟩ := hspec
      exact ⟨hvalid, hsame, hle.trans (Nat.sub_le _ _), fun i hi hi' => .inl (hunmatched i hi hi')⟩
  | case3 s pos hlimit s₁ pos₁ hskip htable ih =>
      have hspec := hcandidate h hlimit
      rw [hskip] at hspec
      obtain ⟨hvalid, hsame, -, hfound, hunmatched⟩ := hspec
      have hlt : pos₁ + 1 ≤ toPos := by
        have := hfound nofun
        simp only at this
        omega
      obtain ⟨hvalid', hsame', hle', hrest⟩ := ih hvalid hlt
      refine ⟨hvalid', hsame.trans hsame', hle', fun i hi hi' => ?_⟩
      rcases Nat.lt_trichotomy i pos₁ with hlt | rfl | hgt
      · exact .inl (hunmatched i hi hlt)
      · rw [← hsame.byteAt]
        exact .inr htable
      · rw [← hsame.stopPatterns, ← hsame.byteAt]
        exact hrest i hgt hi'
  | case4 s pos hlimit s₁ pos₁ hskip htable =>
      have hspec := hcandidate h hlimit
      rw [hskip] at hspec
      obtain ⟨hvalid, hsame, hle, -, hunmatched⟩ := hspec
      exact ⟨hvalid, hsame, hle.trans (Nat.sub_le _ _), fun i hi hi' => .inl (hunmatched i hi hi')⟩
  | case5 s pos => exact ⟨h, .refl s, hpos, fun i hi hi' => absurd hi (not_le.mpr hi')⟩

end CSVByteSkipper

end Csv

end MiniDuck
