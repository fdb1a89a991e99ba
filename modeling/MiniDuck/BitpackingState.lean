import MiniDuck.Bitpacking
import MiniDuck.DeltaCoding

/-!
# Choosing a bitpacking mode

`BitpackingState` collects up to 2048 rows and then decides how to write
them: as one constant, as a first value with a constant step, as packed
differences or as packed distances from the minimum. NULLs leave what
was in the buffer before, which nothing but `compression_buffer` depends
on.

A `BitpackingWrite` stands for a whole metadata group, and `value` for
the row that its reader makes of it. The state knows its rows
(`StateInv`). What it chooses to write then has every valid row
(`choose_encodes`), and whether it finds a way at all is decided by the
rows alone (`choose_isSome`).
-/

namespace MiniDuck

open IntegralType

/-! ## The state -/

abbrev metadataGroupSize : Nat := 2048

/-- The `TrySubtractOperator`. The carry out of the lower half of a `uhugeint_t` is taken into
account before the upper halves are compared. -/
def trySubtract (type : IntegralType) (left right : type.Value) : Option type.Value :=
  if type = ⟨false, .w128⟩ then
    let lower (v : Int) := v % 2 ^ 64
    let upper (v : Int) := v / 2 ^ 64
    let borrow := if (lower left.1 - lower right.1) % 2 ^ 64 > lower left.1 then 1 else 0
    let newUpper := (upper left.1 - upper right.1 - borrow) % 2 ^ 64
    if newUpper > upper left.1 then none else some (type.staticCast (left.1 - right.1))
  else if h : type.Bounds (left.1 - right.1) then some ⟨left.1 - right.1, h⟩ else none

/-- The calls that `Flush` makes on its writer, without the arguments that no
writer reads. -/
inductive BitpackingWrite (type : IntegralType)
  | writeConstant (constant : type.Value)
  | writeConstantDelta (constant : type.makeSigned.Value) (frameOfReference : type.Value)
  | writeDeltaFor (values : Nat → type.Value) (width : Nat) (frameOfReference : type.Value)
      (deltaOffset : type.makeSigned.Value)
  | writeFor (values : Nat → type.Value) (width : Nat) (frameOfReference : type.Value)

structure BitpackingState (type : IntegralType) where
  compressionBuffer : Nat → type.Value
  compressionBufferIdx : Nat
  totalSize : Nat
  minimum : type.Value
  maximum : type.Value
  allValid : Bool
  allInvalid : Bool
  mode : BitpackingMode

/-- What `CalculateDeltaStats` leaves for `Flush` if `can_do_delta` is set. -/
structure DeltaStats (type : IntegralType) where
  deltaBuffer : List type.makeSigned.Value
  minimumDelta : type.makeSigned.Value
  maximumDelta : type.makeSigned.Value
  minMaxDeltaDiff : type.makeSigned.Value
  deltaOffset : type.makeSigned.Value

namespace BitpackingState

variable {type : IntegralType} {σ : Type}

def reset (st : BitpackingState type) : BitpackingState type :=
  { st with
    minimum := ⊤, maximum := ⊥, allValid := true, allInvalid := true, compressionBufferIdx := 0 }

/-- A new state. What is in the buffer has not been initialized. -/
def initial (buffer : Nat → type.Value) (mode : BitpackingMode) : BitpackingState type :=
  reset ⟨buffer, 0, 0, ⊤, ⊥, true, true, mode⟩

section Flush

variable (st : BitpackingState type)

/-- `min_max_diff`, if `can_do_for` is set. -/
def calculateForStats : Option type.Value := trySubtract type st.maximum st.minimum

def signedValues : List type.makeSigned.Value :=
  (List.range st.compressionBufferIdx).map fun i =>
    type.makeSigned.staticCast (st.compressionBuffer i).1

def canDoAll : Bool :=
  let minimum := type.makeSigned.staticCast st.minimum.1
  let maximum := type.makeSigned.staticCast st.maximum.1
  !type.signed ||
    (trySubtract type.makeSigned minimum maximum).isSome &&
      (trySubtract type.makeSigned maximum minimum).isSome

/-- Every row less the one before it. The cell before the first row holds zero. -/
def deltas : Option (List type.makeSigned.Value) :=
  let values := st.signedValues
  let previous := type.makeSigned.staticCast 0 :: values
  if st.canDoAll then
    some (List.zipWith (fun x y => type.makeSigned.staticCast (x.1 - y.1)) values previous)
  else (values.zip previous).mapM fun p => trySubtract type.makeSigned p.1 p.2

def calculateDeltaStats : Option (DeltaStats type) :=
  if st.maximum.1 > intMaximum true type.width then none
  else if st.compressionBufferIdx < 2 then none
  else if !st.allValid then none
  else do
    let deltas ← st.deltas
    let maximumDelta := deltas.tail.foldl max ⊥
    let minimumDelta := deltas.tail.foldl min ⊤
    let minMaxDeltaDiff ← trySubtract type.makeSigned maximumDelta minimumDelta
    let first := type.makeSigned.staticCast (st.compressionBuffer 0).1
    let deltaOffset ← trySubtract type.makeSigned first minimumDelta
    some ⟨minimumDelta :: deltas.tail, minimumDelta, maximumDelta, minMaxDeltaDiff, deltaOffset⟩

def deltaRequiredBitwidth (stats : DeltaStats type) : Nat :=
  BitpackingPrimitives.minimumBitWidth type false (type.staticCast stats.minMaxDeltaDiff.1)

def preferFor (stats : DeltaStats type) : Bool :=
  match st.calculateForStats with
  | some minMaxDiff =>
      decide (BitpackingPrimitives.minimumBitWidth type type.signed minMaxDiff ≤
        deltaRequiredBitwidth stats)
  | none => false

/-- `SubtractFrameOfReference`, of the differences and of the rows. -/
def deltaResiduals (stats : DeltaStats type) : Nat → type.Value := fun i =>
  type.staticCast ((stats.deltaBuffer.getD i stats.minimumDelta).1 - stats.minimumDelta.1)

def residuals : Nat → type.Value := fun i =>
  if i < st.compressionBufferIdx then
    type.staticCast ((st.compressionBuffer i).1 - st.minimum.1)
  else st.compressionBuffer i

/-- `total_size` after a group of `n` bytes. -/
def grown (n : Nat) : BitpackingState type := { st with totalSize := st.totalSize + n }

/-- The end of `Flush`, if differences are not used. -/
def flushFor (op : BitpackingWrite type → Nat → σ → Except String σ) (s : σ) :
    Except String (Bool × BitpackingState type × σ) :=
  match st.calculateForStats with
  | some minMaxDiff =>
      let width := BitpackingPrimitives.minimumBitWidth type false minMaxDiff
      let size := BitpackingPrimitives.getRequiredSize st.compressionBufferIdx width +
        type.width.bytes + 8
      (op (.writeFor st.residuals width st.minimum) st.compressionBufferIdx s).map fun s =>
        (true, { st.grown size with compressionBuffer := st.residuals }, s)
  | none => .ok (false, st, s)

def flush (op : BitpackingWrite type → Nat → σ → Except String σ) (s : σ) :
    Except String (Bool × BitpackingState type × σ) :=
  let count := st.compressionBufferIdx
  if count = 0 then .ok (true, st, s)
  else if (st.allInvalid || st.maximum = st.minimum) &&
      (st.mode = .auto || st.mode = .constant) then
    (op (.writeConstant st.maximum) count s).map fun s =>
      (true, st.grown (type.width.bytes + 4), s)
  else
    match st.calculateDeltaStats with
    | some stats =>
        if stats.maximumDelta = stats.minimumDelta ∧ st.mode ≠ .for_ ∧ st.mode ≠ .deltaFor then
          (op (.writeConstantDelta stats.maximumDelta (st.compressionBuffer 0)) count s).map
            fun s => (true, st.grown (type.width.bytes + type.width.bytes + 4), s)
        else if !st.preferFor stats && st.mode ≠ .for_ then
          let width := deltaRequiredBitwidth stats
          let size := type.width.bytes + 8 + type.width.bytes +
            BitpackingPrimitives.getRequiredSize count width
          (op (.writeDeltaFor (deltaResiduals stats) width
            (type.staticCast stats.minimumDelta.1) stats.deltaOffset) count s).map
            fun s => (true, st.grown size, s)
        else st.flushFor op s
    | none => st.flushFor op s

end Flush

/-- `Update` before the buffer is flushed. -/
def push (st : BitpackingState type) : Option type.Value → BitpackingState type
  | some value =>
      { st with
        compressionBuffer := Function.update st.compressionBuffer st.compressionBufferIdx value
        compressionBufferIdx := st.compressionBufferIdx + 1
        minimum := min st.minimum value
        maximum := max st.maximum value
        allInvalid := false }
  | none =>
      { st with compressionBufferIdx := st.compressionBufferIdx + 1, allValid := false }

def update (op : BitpackingWrite type → Nat → σ → Except String σ) (st : BitpackingState type)
    (s : σ) (val : Option type.Value) : Except String (Bool × BitpackingState type × σ) :=
  let st := st.push val
  if st.compressionBufferIdx = metadataGroupSize then
    (st.flush op s).map fun (success, st, s) => (success, st.reset, s)
  else .ok (true, st, s)

end BitpackingState

/-! ## Subtraction -/

variable {type : IntegralType}

variable {right : type.Value}

theorem trySubtract_eq {left d : type.Value} (h : trySubtract type left right = some d) :
    d = type.staticCast (left.1 - right.1) := by
  unfold trySubtract at h
  split at h
  · extract_lets lower upper borrow newUpper at h
    split at h
    · cases h
    · exact (Option.some.inj h).symm
  · split at h
    · rename_i hb
      obtain rfl := Option.some.inj h
      exact Subtype.ext (staticCast_of_bounds hb).symm
    · cases h

theorem trySubtract_of_le {left d : type.Value} (h : trySubtract type left right = some d)
    (hle : right ≤ left) : d.1 = left.1 - right.1 := by
  have hle' : right.1 ≤ left.1 := hle
  by_cases htype : type = ⟨false, .w128⟩
  · subst htype
    rw [trySubtract_eq h]
    have hright : 0 ≤ right.1 := right.2.1
    exact staticCast_of_bounds
      (Bounds.between (zero_bounds _) left.2 (by omega) (by omega))
  · rw [trySubtract, if_neg htype] at h
    split at h
    · obtain rfl := Option.some.inj h
      rfl
    · cases h

theorem toBits_sub {left d : type.Value} (h : d = type.staticCast (left.1 - right.1)) :
    type.toBits d = type.toBits left - type.toBits right := by
  rw [h, toBits_staticCast, Int.cast_sub]
  rfl

/-- A number that is not negative keeps all its bits in its width. -/
theorem lowBits_staticCast {n : Int} {diff : type.Value} (h : 0 ≤ n) (hdiff : n ≤ diff.1) :
    lowBits (BitpackingPrimitives.minimumBitWidth type false diff)
      (type.toBits (type.staticCast n)) = (n : BitVec type.bits) := by
  have hlt := BitpackingPrimitives.lt_minimumBitWidth (by omega : 0 ≤ diff.1)
  have hbits : (n : BitVec type.bits).toNat ≤ n.toNat := by
    rw [BitVec.toNat_intCast, Int.toNat_emod h (Int.pow_nonneg (by decide))]
    exact Nat.mod_le _ _
  rw [toBits_staticCast]
  refine lowBits_eq ?_
  have hcast : ((n : BitVec type.bits).toNat : Int) <
      ((2 ^ BitpackingPrimitives.minimumBitWidth type false diff : Nat) : Int) := by
    push_cast
    omega
  exact_mod_cast hcast

/-! ## Minima and maxima -/

section Extrema

variable {α : Type} [LinearOrder α]

theorem foldl_min_le (l : List α) (a : α) :
    l.foldl min a ≤ a ∧ ∀ x ∈ l, l.foldl min a ≤ x := by
  induction l generalizing a with
  | nil => exact ⟨le_refl a, fun x hx => absurd hx List.not_mem_nil⟩
  | cons y l ih =>
      obtain ⟨ha, hl⟩ := ih (min a y)
      refine ⟨ha.trans (min_le_left a y), fun x hx => ?_⟩
      rcases List.mem_cons.mp hx with rfl | hx
      · exact ha.trans (min_le_right a x)
      · exact hl x hx

theorem le_foldl_max (l : List α) (a : α) :
    a ≤ l.foldl max a ∧ ∀ x ∈ l, x ≤ l.foldl max a :=
  @foldl_min_le αᵒᵈ _ l a

end Extrema

/-! ## What a group stands for -/

namespace BitpackingWrite

def width : BitpackingWrite type → Nat
  | writeConstant _ => 0
  | writeConstantDelta .. => 0
  | writeDeltaFor _ width .. => width
  | writeFor _ width _ => width

def packed : BitpackingWrite type → Nat → BitVec type.bits
  | writeConstant _, _ => 0
  | writeConstantDelta .., _ => 0
  | writeDeltaFor values width .., i => lowBits width (type.toBits (values i))
  | writeFor values width _, i => lowBits width (type.toBits (values i))

def value : BitpackingWrite type → Nat → BitVec type.bits
  | writeConstant constant, _ => type.toBits constant
  | writeConstantDelta constant frame, i =>
      type.makeSigned.toBits constant * BitVec.ofNat type.bits i + type.toBits frame
  | writeDeltaFor values width frame offset, i =>
      partialSum (type.makeSigned.toBits offset)
        (fun j => lowBits width (type.toBits (values j)) + type.toBits frame) (i + 1)
  | writeFor values width frame, i => lowBits width (type.toBits (values i)) + type.toBits frame

structure Encodes (w : BitpackingWrite type) (rows : List (Option type.Value)) : Prop where
  value : ∀ i v, rows[i]? = some (some v) → w.value i = type.toBits v
  width : w.width ≤ type.bits

end BitpackingWrite

namespace BitpackingState

open BitpackingWrite

/-! ## Differences -/

variable {st st' : BitpackingState type} {rows : List (Option type.Value)} {mode : BitpackingMode}

def rowBits (st : BitpackingState type) (i : Nat) : BitVec type.bits :=
  type.toBits (st.compressionBuffer i)

theorem toBits_signed (v : type.Value) :
    type.makeSigned.toBits (type.makeSigned.staticCast v.1) = type.toBits v :=
  toBits_staticCast type.makeSigned v.1

theorem mapM_getElem? {α β : Type} {f : α → Option β} :
    {l : List α} → {l' : List β} → l.mapM f = some l' →
      l'.length = l.length ∧ ∀ (i : Nat) b, l'[i]? = some b → ∃ a, l[i]? = some a ∧ f a = some b
  | [], l', h => by
      obtain rfl : [] = l' := by simpa using h
      exact ⟨rfl, fun i b hb => by simp at hb⟩
  | a :: l, l', h => by
      rw [List.mapM_cons] at h
      obtain ⟨b, hb, h⟩ := Option.bind_eq_some_iff.mp h
      obtain ⟨bs, hbs, h⟩ := Option.bind_eq_some_iff.mp h
      obtain rfl : b :: bs = l' := Option.some.inj h
      obtain ⟨hlen, hget⟩ := mapM_getElem? hbs
      refine ⟨congrArg (· + 1) hlen, fun i c hc => ?_⟩
      cases i with
      | zero =>
          obtain rfl : b = c := by simpa using hc
          exact ⟨a, rfl, hb⟩
      | succ i => exact hget i c hc

variable {i : Nat}

theorem getElem?_signedValues {v : type.makeSigned.Value} (h : st.signedValues[i]? = some v) :
    v = type.makeSigned.staticCast (st.compressionBuffer i).1 := by
  rw [signedValues, List.getElem?_map, Option.map_eq_some_iff] at h
  obtain ⟨j, hj, rfl⟩ := h
  obtain ⟨hlt, hj⟩ := List.getElem?_eq_some_iff.mp hj
  rw [List.getElem_range] at hj
  rw [hj]

/-- Whether or not it is checked, a difference is right up to what wraps. -/
theorem deltas_spec {ds : List type.makeSigned.Value} (h : st.deltas = some ds) :
    ds.length = st.compressionBufferIdx ∧ ∀ i d, ds[i + 1]? = some d →
      type.makeSigned.toBits d = st.rowBits (i + 1) - st.rowBits i := by
  have hlen : st.signedValues.length = st.compressionBufferIdx := by simp [signedValues]
  have hsub : ∀ i x y d, st.signedValues[i + 1]? = some x →
      (type.makeSigned.staticCast 0 :: st.signedValues)[i + 1]? = some y →
      d = type.makeSigned.staticCast (x.1 - y.1) →
      type.makeSigned.toBits d = st.rowBits (i + 1) - st.rowBits i := by
    intro i x y d hx hy hd
    rw [List.getElem?_cons_succ] at hy
    rw [toBits_sub hd, getElem?_signedValues hx, getElem?_signedValues hy, toBits_signed,
      toBits_signed]
    rfl
  unfold deltas at h
  extract_lets values previous at h
  split at h
  · obtain rfl := Option.some.inj h
    refine ⟨by simp [values, previous, hlen], fun i d hd => ?_⟩
    rw [List.getElem?_zipWith_eq_some] at hd
    obtain ⟨x, y, hx, hy, rfl⟩ := hd
    exact hsub i x y _ hx hy rfl
  · obtain ⟨hds, hget⟩ := mapM_getElem? h
    refine ⟨by simpa [values, previous, hlen] using hds, fun i d hd => ?_⟩
    obtain ⟨⟨x, y⟩, hxy, hd⟩ := hget (i + 1) d hd
    rw [List.getElem?_zip_eq_some] at hxy
    exact hsub i x y d hxy.1 hxy.2 (trySubtract_eq hd)

/-- What the differences are known to be when they are used. -/
structure DeltaStatsOk (st : BitpackingState type) (stats : DeltaStats type) : Prop where
  allValid : st.allValid = true
  first : stats.deltaBuffer.getD 0 stats.minimumDelta = stats.minimumDelta
  next : ∀ i, i + 1 < st.compressionBufferIdx →
    stats.minimumDelta ≤ stats.deltaBuffer.getD (i + 1) stats.minimumDelta ∧
      stats.deltaBuffer.getD (i + 1) stats.minimumDelta ≤ stats.maximumDelta ∧
      type.makeSigned.toBits (stats.deltaBuffer.getD (i + 1) stats.minimumDelta) =
        st.rowBits (i + 1) - st.rowBits i
  diff : stats.minMaxDeltaDiff.1 = stats.maximumDelta.1 - stats.minimumDelta.1
  le : stats.minimumDelta ≤ stats.maximumDelta
  offset : type.makeSigned.toBits stats.deltaOffset =
    st.rowBits 0 - type.makeSigned.toBits stats.minimumDelta

variable {stats : DeltaStats type}

theorem calculateDeltaStats_ok (h : st.calculateDeltaStats = some stats) :
    st.DeltaStatsOk stats := by
  unfold calculateDeltaStats at h
  split at h
  · cases h
  split at h
  · cases h
  split at h
  · cases h
  rename_i hcount hvalid
  obtain ⟨ds, hds, h⟩ := Option.bind_eq_some_iff.mp h
  extract_lets maximumDelta minimumDelta first at h
  obtain ⟨diff, hdiff, h⟩ := Option.bind_eq_some_iff.mp h
  obtain ⟨offset, hoffset, h⟩ := Option.bind_eq_some_iff.mp h
  obtain rfl := Option.some.inj h
  obtain ⟨hlen, hget⟩ := deltas_spec hds
  have hnext : ∀ i, i + 1 < st.compressionBufferIdx → ∃ d, ds[i + 1]? = some d ∧
      (minimumDelta :: ds.tail).getD (i + 1) minimumDelta = d ∧ d ∈ ds.tail := by
    intro i hi
    have hlt : i < ds.tail.length := by
      rw [List.length_tail]
      omega
    refine ⟨ds.tail[i], ?_, ?_, List.getElem_mem hlt⟩
    · rw [List.getElem_tail, List.getElem?_eq_getElem]
    · rw [List.getD_eq_getElem?_getD, List.getElem?_cons_succ, List.getElem?_eq_getElem hlt,
        Option.getD_some]
  have hbounds : ∀ d ∈ ds.tail, minimumDelta ≤ d ∧ d ≤ maximumDelta :=
    fun d hd => ⟨(foldl_min_le _ _).2 d hd, (le_foldl_max _ _).2 d hd⟩
  have hle : minimumDelta ≤ maximumDelta := by
    obtain ⟨d, -, -, hd⟩ := hnext 0 (by omega)
    exact (hbounds d hd).1.trans (hbounds d hd).2
  refine ⟨by simpa using hvalid, rfl, fun i hi => ?_, ?_, hle, ?_⟩
  · obtain ⟨d, hd, hgetD, hmem⟩ := hnext i hi
    simp only [hgetD]
    exact ⟨(hbounds d hmem).1, (hbounds d hmem).2, hget i d hd⟩
  · exact trySubtract_of_le hdiff hle
  · rw [toBits_sub (trySubtract_eq hoffset), toBits_signed]
    rfl

/-! ## Flush -/

def chooseFor (st : BitpackingState type) : Option (BitpackingWrite type) :=
  st.calculateForStats.map fun minMaxDiff =>
    .writeFor st.residuals (BitpackingPrimitives.minimumBitWidth type false minMaxDiff) st.minimum

/-- What `Flush` writes if there are rows. -/
def choose (st : BitpackingState type) : Option (BitpackingWrite type) :=
  if (st.allInvalid || st.maximum = st.minimum) && (st.mode = .auto || st.mode = .constant) then
    some (.writeConstant st.maximum)
  else
    match st.calculateDeltaStats with
    | some stats =>
        if stats.maximumDelta = stats.minimumDelta ∧ st.mode ≠ .for_ ∧ st.mode ≠ .deltaFor then
          some (.writeConstantDelta stats.maximumDelta (st.compressionBuffer 0))
        else if !st.preferFor stats && st.mode ≠ .for_ then
          some (.writeDeltaFor (deltaResiduals stats) (deltaRequiredBitwidth stats)
            (type.staticCast stats.minimumDelta.1) stats.deltaOffset)
        else st.chooseFor
    | none => st.chooseFor

section

variable {σ : Type} (op : BitpackingWrite type → Nat → σ → Except String σ) (s : σ)

/-- `Flush` has made this call, if any. -/
def Calls (st : BitpackingState type) (w : Option (BitpackingWrite type))
    (result : Except String (Bool × BitpackingState type × σ)) : Prop :=
  ∃ after, after.mode = st.mode ∧ (w = none → result = .ok (false, after, s)) ∧
    ∀ call, w = some call →
      result = (op call st.compressionBufferIdx s).map fun s => (true, after, s)

theorem calls_some {call : BitpackingWrite type} {after : BitpackingState type}
    (h : after.mode = st.mode) : Calls op s st (some call)
      ((op call st.compressionBufferIdx s).map fun s => (true, after, s)) := by
  refine ⟨after, h, nofun, fun call' hcall => ?_⟩
  obtain rfl := Option.some.inj hcall
  rfl

theorem flushFor_calls : Calls op s st st.chooseFor (st.flushFor op s) := by
  unfold flushFor chooseFor
  cases st.calculateForStats with
  | none => exact ⟨st, rfl, fun _ => rfl, nofun⟩
  | some minMaxDiff => exact calls_some op s rfl

theorem flush_empty (h : st.compressionBufferIdx = 0) : st.flush op s = .ok (true, st, s) :=
  if_pos h

/-- `Flush` makes one call or none, and which one does not depend on the writer. -/
theorem flush_calls (h : st.compressionBufferIdx ≠ 0) :
    Calls op s st st.choose (st.flush op s) := by
  unfold flush choose
  extract_lets count
  rw [if_neg h]
  split
  · exact calls_some op s rfl
  cases st.calculateDeltaStats with
  | none => exact flushFor_calls op s
  | some stats =>
      simp only
      split
      · exact calls_some op s rfl
      · split
        · exact calls_some op s rfl
        · exact flushFor_calls op s

end

/-! ## The rows of a state -/

/-- The state has seen these rows since it was reset. -/
structure StateInv (st : BitpackingState type) (rows : List (Option type.Value))
    (mode : BitpackingMode) : Prop where
  idx : st.compressionBufferIdx = rows.length
  buffer : ∀ i v, rows[i]? = some (some v) → st.compressionBuffer i = v
  minimum : st.minimum = (rows.filterMap id).foldl min ⊤
  maximum : st.maximum = (rows.filterMap id).foldl max ⊥
  allValid : st.allValid = rows.all Option.isSome
  allInvalid : st.allInvalid = rows.all Option.isNone
  mode : st.mode = mode

theorem reset_inv (h : st.mode = mode) : st.reset.StateInv [] mode :=
  ⟨rfl, fun i v hi => by simp at hi, rfl, rfl, rfl, rfl, h⟩

theorem getElem?_concat {α : Type} {l : List α} {x y : α} (h : (l ++ [x])[i]? = some y) :
    l[i]? = some y ∨ i = l.length ∧ x = y := by
  obtain ⟨hi, hy⟩ := List.getElem?_eq_some_iff.mp h
  rw [List.length_append, List.length_singleton] at hi
  rcases Nat.lt_or_ge i l.length with hlt | hge
  · rw [List.getElem?_append_left hlt] at h
    exact Or.inl h
  · obtain rfl : i = l.length := by omega
    rw [List.getElem_concat_length rfl] at hy
    exact Or.inr ⟨rfl, hy⟩

theorem push_inv (h : st.StateInv rows mode) (val : Option type.Value) :
    (st.push val).StateInv (rows ++ [val]) mode := by
  cases val with
  | none =>
      refine ⟨by simp [push, h.idx], fun i v hi => ?_, ?_, ?_, ?_, ?_, h.mode⟩
      · rcases getElem?_concat hi with hi | ⟨-, hi⟩
        · exact h.buffer i v hi
        · cases hi
      · simpa [push] using h.minimum
      · simpa [push] using h.maximum
      · simp [push]
      · simpa [push] using h.allInvalid
  | some value =>
      refine ⟨by simp [push, h.idx], fun i v hi => ?_, ?_, ?_, ?_, ?_, h.mode⟩
      · simp only [push]
        rcases getElem?_concat hi with hi | ⟨rfl, hv⟩
        · have hlt := (List.getElem?_eq_some_iff.mp hi).1
          rw [Function.update_of_ne (by rw [h.idx]; omega)]
          exact h.buffer i v hi
        · rw [← h.idx, Function.update_self]
          exact Option.some.inj hv
      · simp [push, h.minimum]
      · simp [push, h.maximum]
      · simpa [push] using h.allValid
      · simp [push]

/-- A valid row lies between the minimum and the maximum. -/
theorem StateInv.bounds (h : st.StateInv rows mode) {i : Nat} {v : type.Value}
    (hv : rows[i]? = some (some v)) : st.minimum ≤ v ∧ v ≤ st.maximum := by
  have hmem : v ∈ rows.filterMap id :=
    List.mem_filterMap.mpr ⟨some v, List.mem_of_getElem? hv, rfl⟩
  rw [h.minimum, h.maximum]
  exact ⟨(foldl_min_le _ _).2 v hmem, (le_foldl_max _ _).2 v hmem⟩

theorem StateInv.rowBits (h : st.StateInv rows mode) {v : type.Value}
    (hv : rows[i]? = some (some v)) : st.rowBits i = type.toBits v :=
  congrArg type.toBits (h.buffer i v hv)

theorem StateInv.lt (h : st.StateInv rows mode) {v : type.Value} (hv : rows[i]? = some (some v)) :
    i < st.compressionBufferIdx := by
  rw [h.idx]
  exact (List.getElem?_eq_some_iff.mp hv).1

/-! ## The choice is right -/

theorem chooseFor_encodes {w : BitpackingWrite type} (h : st.StateInv rows mode)
    (hw : st.chooseFor = some w) : w.Encodes rows := by
  obtain ⟨diff, hdiff, rfl⟩ := Option.map_eq_some_iff.mp hw
  refine ⟨fun i v hv => ?_, BitpackingPrimitives.minimumBitWidth_le ..⟩
  obtain ⟨hmin, hmax⟩ := h.bounds hv
  have hmin' : st.minimum.1 ≤ v.1 := hmin
  have hmax' : v.1 ≤ st.maximum.1 := hmax
  have hrange := trySubtract_of_le hdiff (hmin.trans hmax)
  have hres : st.residuals i = type.staticCast (v.1 - st.minimum.1) := by
    rw [residuals, if_pos (h.lt hv), h.buffer i v hv]
  rw [BitpackingWrite.value, hres, lowBits_staticCast (by omega) (by omega), Int.cast_sub]
  exact sub_add_cancel _ _

theorem staticCast_diff (stats : DeltaStats type) (h : st.DeltaStatsOk stats) :
    (type.staticCast stats.minMaxDeltaDiff.1).1 =
      stats.maximumDelta.1 - stats.minimumDelta.1 := by
  have hle : stats.minimumDelta.1 ≤ stats.maximumDelta.1 := h.le
  have hdiff := h.diff
  have hbounds : type.Bounds stats.minMaxDeltaDiff.1 := by
    have hsigned := stats.minMaxDeltaDiff.2
    obtain ⟨signed, width⟩ := type
    cases signed with
    | true => exact hsigned
    | false =>
        refine ⟨by omega, lt_of_lt_of_le hsigned.2 ?_⟩
        exact pow_le_pow_right₀ (by decide) (Nat.sub_le _ _)
  rw [staticCast_of_bounds hbounds, hdiff]

theorem deltaResidual_add (h : st.DeltaStatsOk stats) (i : Nat) {delta : type.makeSigned.Value}
    (hdelta : stats.deltaBuffer.getD i stats.minimumDelta = delta)
    (hmin : stats.minimumDelta ≤ delta) (hmax : delta ≤ stats.maximumDelta) :
    lowBits (deltaRequiredBitwidth stats) (type.toBits (deltaResiduals stats i)) +
      type.toBits (type.staticCast stats.minimumDelta.1) = type.makeSigned.toBits delta := by
  have hmin' : stats.minimumDelta.1 ≤ delta.1 := hmin
  have hmax' : delta.1 ≤ stats.maximumDelta.1 := hmax
  have hdiff := staticCast_diff stats h
  have hres : deltaResiduals stats i = type.staticCast (delta.1 - stats.minimumDelta.1) := by
    rw [deltaResiduals, hdelta]
  rw [hres, deltaRequiredBitwidth, lowBits_staticCast (by omega) (by omega), toBits_staticCast,
    Int.cast_sub]
  exact sub_add_cancel _ _

theorem deltaRequiredBitwidth_le (stats : DeltaStats type) :
    deltaRequiredBitwidth stats ≤ type.bits :=
  BitpackingPrimitives.minimumBitWidth_le ..

def deltaSequence (st : BitpackingState type) (stats : DeltaStats type) : Nat → BitVec type.bits
  | 0 => type.makeSigned.toBits stats.deltaOffset
  | j + 1 => st.rowBits j

theorem deltaFor_value (h : st.DeltaStatsOk stats) (hi : i < st.compressionBufferIdx) :
    (BitpackingWrite.writeDeltaFor (deltaResiduals stats) (deltaRequiredBitwidth stats)
      (type.staticCast stats.minimumDelta.1) stats.deltaOffset).value i = st.rowBits i := by
  refine partialSum_differences (f := deltaSequence st stats) (n := i + 1) fun j hj => ?_
  cases j with
  | zero =>
      rw [deltaResidual_add h 0 h.first (le_refl _) h.le]
      rw [deltaSequence, deltaSequence]
      rw [h.offset]
      abel
  | succ j =>
      obtain ⟨hmin, hmax, hbits⟩ := h.next j (by omega)
      rw [deltaResidual_add h (j + 1) rfl hmin hmax, hbits]
      rfl

theorem constantDelta_value (h : st.DeltaStatsOk stats)
    (heq : stats.maximumDelta = stats.minimumDelta) (hi : i < st.compressionBufferIdx) :
    (BitpackingWrite.writeConstantDelta stats.maximumDelta (st.compressionBuffer 0)).value i =
      st.rowBits i := by
  induction i with
  | zero =>
      simp only [BitpackingWrite.value]
      rw [BitVec.mul_zero, BitVec.zero_add]
      rfl
  | succ i ih =>
      obtain ⟨hmin, hmax, hbits⟩ := h.next i hi
      have hconst := le_antisymm hmax (heq ▸ hmin)
      rw [hconst] at hbits
      have hsucc : BitVec.ofNat type.bits (i + 1) = BitVec.ofNat type.bits i + 1 :=
        BitVec.ofNat_add i 1
      have hprev := ih (by omega)
      simp only [BitpackingWrite.value] at hprev ⊢
      rw [hsucc, mul_add, mul_one, add_right_comm, hprev, hbits]
      exact add_sub_cancel _ _

theorem choose_encodes {w : BitpackingWrite type} (h : st.StateInv rows mode)
    (hw : st.choose = some w) : w.Encodes rows := by
  unfold choose at hw
  split at hw
  · rename_i hcond
    obtain rfl := Option.some.inj hw
    refine ⟨fun i v hv => congrArg type.toBits ?_, Nat.zero_le _⟩
    obtain ⟨hmin, hmax⟩ := h.bounds hv
    rw [Bool.and_eq_true, Bool.or_eq_true, decide_eq_true_eq] at hcond
    rcases hcond.1 with hall | heq
    · rw [h.allInvalid, List.all_eq_true] at hall
      exact absurd (hall _ (List.mem_of_getElem? hv)) (by simp)
    · exact le_antisymm (heq ▸ hmin) hmax
  · cases hstats : st.calculateDeltaStats with
    | none =>
        rw [hstats] at hw
        exact chooseFor_encodes h hw
    | some stats =>
        rw [hstats] at hw
        have hok := calculateDeltaStats_ok hstats
        simp only at hw
        split at hw
        · rename_i hcond
          obtain rfl := Option.some.inj hw
          refine ⟨fun i v hv => ?_, Nat.zero_le _⟩
          rw [constantDelta_value hok hcond.1 (h.lt hv), h.rowBits hv]
        · split at hw
          · obtain rfl := Option.some.inj hw
            refine ⟨fun i v hv => ?_, deltaRequiredBitwidth_le stats⟩
            rw [deltaFor_value hok (h.lt hv), h.rowBits hv]
          · exact chooseFor_encodes h hw

/-! ## The choice depends on the rows only -/

section

variable {mode' : BitpackingMode} (h : st.StateInv rows mode) (h' : st'.StateInv rows mode')

include h h'

theorem buffer_congr (hvalid : st.allValid = true) {i : Nat} (hi : i < st.compressionBufferIdx) :
    st.compressionBuffer i = st'.compressionBuffer i := by
  rw [h.idx] at hi
  rw [h.allValid, List.all_eq_true] at hvalid
  obtain ⟨v, hv⟩ := Option.isSome_iff_exists.mp (hvalid _ (List.getElem_mem hi))
  have hget : rows[i]? = some (some v) := by rw [List.getElem?_eq_getElem hi, hv]
  rw [h.buffer i v hget, h'.buffer i v hget]

theorem calculateDeltaStats_congr : st.calculateDeltaStats = st'.calculateDeltaStats := by
  have hidx : st'.compressionBufferIdx = st.compressionBufferIdx := by rw [h.idx, h'.idx]
  have hmin : st'.minimum = st.minimum := by rw [h.minimum, h'.minimum]
  have hmax : st'.maximum = st.maximum := by rw [h.maximum, h'.maximum]
  have hvalid : st'.allValid = st.allValid := by rw [h.allValid, h'.allValid]
  unfold calculateDeltaStats
  rw [hidx, hmax, hvalid]
  split
  · rfl
  split
  · rfl
  split
  · rfl
  rename_i hcount hall
  have hall' : st.allValid = true := by simpa using hall
  have hvalues : st'.signedValues = st.signedValues := by
    unfold signedValues
    rw [hidx]
    refine List.map_congr_left fun i hi => ?_
    rw [buffer_congr h h' hall' (List.mem_range.mp hi)]
  have hdeltas : st'.deltas = st.deltas := by
    unfold deltas canDoAll
    rw [hvalues, hmin, hmax]
  rw [hdeltas, buffer_congr h h' hall' (by omega)]

/-- Two states with the same rows find a way to write them or neither does. -/
theorem choose_isSome (hmode : mode' = mode) : st.choose.isSome = st'.choose.isSome := by
  have hmode' : st'.mode = st.mode := by rw [h.mode, h'.mode, hmode]
  have hfor : st'.calculateForStats = st.calculateForStats := by
    unfold calculateForStats
    rw [h.minimum, h.maximum, h'.minimum, h'.maximum]
  have hsome : st.chooseFor.isSome = st'.chooseFor.isSome := by
    unfold chooseFor
    rw [hfor, Option.isSome_map, Option.isSome_map]
  have hprefer : ∀ stats, st'.preferFor stats = st.preferFor stats := by
    intro stats
    unfold preferFor
    rw [hfor]
  unfold choose
  rw [h'.minimum, h'.maximum, h'.allInvalid, ← h.minimum, ← h.maximum, ← h.allInvalid, hmode',
    ← calculateDeltaStats_congr h h']
  split
  · rfl
  cases st.calculateDeltaStats with
  | none => exact hsome
  | some stats =>
      simp only [hprefer]
      split
      · rfl
      · split
        · rfl
        · exact hsome

end

end BitpackingState

end MiniDuck
