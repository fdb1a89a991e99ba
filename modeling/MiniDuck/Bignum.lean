import MiniDuck.ByteBits
import MiniDuck.Numeral

/-!
# BIGNUM values

A BIGNUM is a header of three bytes and the bytes of the absolute value,
the highest first. The header has its top bit set and the number of bytes
behind it; for a negative number all bytes are complemented. The integer
that a text denotes is encoded as `encoding` (`varcharToBignum_text`).

Arithmetic of `digit_t` and `twodigit_t` is checked here: a result that
does not fit is `overflow`, where the code would go on with the low bits.
-/

namespace MiniDuck

inductive BignumError
  | conversion (value : List UInt8)
  | blobSize
  /-- A result does not fit in its type. -/
  | overflow (bits : Nat)
  /-- A vector is read or written behind its end. -/
  | outOfBounds
  /-- The bound on the depth of a recursion is used up. -/
  | outOfFuel
  deriving Repr, DecidableEq

namespace Bignum

/-! ## Unsigned arithmetic -/

def unsigned (bits n : Nat) : Except BignumError Nat :=
  if n < 2 ^ bits then .ok n else .error (.overflow bits)

def add32 (a b : Nat) : Except BignumError Nat := unsigned 32 (a + b)

def mul32 (a b : Nat) : Except BignumError Nat := unsigned 32 (a * b)

def sub32 (a b : Nat) : Except BignumError Nat :=
  if b ≤ a then .ok (a - b) else .error (.overflow 32)

def add64 (a b : Nat) : Except BignumError Nat := unsigned 64 (a + b)

def mul64 (a b : Nat) : Except BignumError Nat := unsigned 64 (a * b)

def sub64 (a b : Nat) : Except BignumError Nat :=
  if b ≤ a then .ok (a - b) else .error (.overflow 64)

/-- `static_cast<digit_t>` -/
def toDigit (n : Nat) : Nat := n % 2 ^ 32

theorem unsigned_ok {bits n : Nat} (h : n < 2 ^ bits) : unsigned bits n = .ok n := if_pos h

theorem sub32_ok {a b : Nat} (h : b ≤ a) : sub32 a b = .ok (a - b) := if_pos h

theorem sub64_ok {a b : Nat} (h : b ≤ a) : sub64 a b = .ok (a - b) := if_pos h

theorem toDigit_of_lt {n : Nat} (h : n < 2 ^ 32) : toDigit n = n := Nat.mod_eq_of_lt h

theorem ok_bind {α β : Type} (a : α) (f : α → Except BignumError β) :
    (Except.ok a >>= f) = f a := rfl

/-! ## Constants -/

def decimalShift : Nat := 9

def decimalBase : Nat := 1000000000

def headerSize : Nat := 3

/-! ## Reading a text -/

/-- What `VarcharFormatting` finds in a text. -/
structure Formatting where
  startPos : Nat
  endPos : Nat
  isNegative : Bool
  isZero : Bool
  shouldRoundUp : Bool
  deriving Repr, DecidableEq

def characterIsDigit (c : UInt8) : Bool := 48 ≤ c && c ≤ 57

def shouldRoundDecimalDigits (data : List UInt8) (decimalStart decimalEnd : Nat) : Bool :=
  decimalStart < decimalEnd && 53 ≤ data.getD decimalStart 0

def varcharFormatting (value : List UInt8) : Option Formatting :=
  if value.length = 0 then none
  else
    let endPos := value.length
    let isNegative : Bool := value.headD 0 = 45
    let startPos := if isNegative then 1 else 0
    let startPos := if value.headD 0 = 43 then startPos + 1 else startPos
    let zeros := ((value.drop startPos).takeWhile (· = 48)).length
    let startPos := startPos + zeros
    let atLeastOneZero : Bool := 0 < zeros
    if startPos = endPos then
      if atLeastOneZero then some ⟨startPos, endPos, isNegative, true, false⟩ else none
    else
      let curPos := startPos + ((value.drop startPos).takeWhile characterIsDigit).length
      if curPos < endPos then
        let possibleEnd := curPos
        if value.getD curPos 0 ≠ 46 then none
        else
          let decimalStart := curPos + 1
          if !(value.drop decimalStart).all characterIsDigit then none
          else
            let hasDigitAfterDecimal : Bool := decimalStart < endPos
            let shouldRoundUp := shouldRoundDecimalDigits value decimalStart endPos
            -- without integer digits the value is zero, or rounded to one
            if possibleEnd = startPos then
              if !atLeastOneZero && !hasDigitAfterDecimal then none
              else if shouldRoundUp then some ⟨startPos, possibleEnd, isNegative, false, true⟩
              else some ⟨startPos, possibleEnd, isNegative, true, false⟩
            else some ⟨startPos, possibleEnd, isNegative, false, shouldRoundUp⟩
      else some ⟨startPos, endPos, isNegative, false, false⟩

/-- `IncrementDecimalString`, of the digits from the lowest on, while there is a carry. -/
def incrementDigits : List UInt8 → List UInt8
  | [] => [49]
  | c :: digits =>
      let digit := c.toNat - 48 + 1
      UInt8.ofNat (48 + digit % 10) ::
        if digit / 10 = 0 then digits else incrementDigits digits

def incrementDecimalString (digits : List UInt8) : List UInt8 :=
  (incrementDigits digits.reverse).reverse

/-! ## Writing a value -/

def setHeader (numberOfBytes : Nat) (isNegative : Bool) : List Byte :=
  let header := BitVec.ofNat 32 numberOfBytes ||| 0x00800000#32
  let header := if isNegative then ~~~header else header
  [(header >>> 16).setWidth 8, ((header >>> 8) &&& 0xFF#32).setWidth 8,
    (header &&& 0xFF#32).setWidth 8]

def initializeBignumZero : List Byte := setHeader 1 false ++ [0]

def readChunk (chunk : List UInt8) : Except BignumError Nat :=
  chunk.foldlM (fun carry c => do
    let carry ← mul32 carry 10
    add32 carry (c.toNat - 48)) 0

/-- Multiplies the digits by `chunkBase` and adds `carry`. The carry that is left comes with
them. -/
def multiplyAdd (chunkBase : Nat) : List Nat → Nat → Except BignumError (List Nat × Nat)
  | [], carry => .ok ([], carry)
  | digit :: digits, carry => do
      let tmp ← mul64 digit chunkBase
      let tmp ← add64 tmp carry
      let (digits, carry) ← multiplyAdd chunkBase digits (toDigit (tmp >>> 32))
      return (toDigit tmp :: digits, carry)

def addChunk (chunkBase : Nat) (digits : List Nat) (chunk : List UInt8) :
    Except BignumError (List Nat) := do
  let carry ← readChunk chunk
  let (digits, carry) ← multiplyAdd chunkBase digits carry
  return if carry ≠ 0 then digits ++ [carry] else digits

def addChunks : Nat → List Nat → List UInt8 → Except BignumError (List Nat)
  | 0, digits, _ => .ok digits
  | n + 1, digits, value => do
      let digits ← addChunk decimalBase digits (value.take decimalShift)
      addChunks n digits (value.drop decimalShift)

/-- `10 ** n` -/
def chunkBase : Nat → Except BignumError Nat
  | 0 => .ok 1
  | n + 1 => do
      let base ← chunkBase n
      mul32 base 10

def binaryDigits (value : List UInt8) : Except BignumError (List Nat) := do
  let actualSize := value.length
  let chunkSize := actualSize % decimalShift
  let chunkSize := if chunkSize = 0 then decimalShift else chunkSize
  let base ← chunkBase chunkSize
  -- an empty text has no chunk
  if actualSize = 0 then return []
  let digits ← addChunk base [] (value.take chunkSize)
  addChunks ((actualSize - chunkSize) / decimalShift) digits (value.drop chunkSize)

/-- The bytes of a digit, the lowest first; those of the highest digit end with the last that
is not zero. -/
def digitBytes (isLast : Bool) : Nat → Nat → List Byte
  | 0, _ => []
  | n + 1, digit =>
      if isLast && digit = 0 then []
      else BitVec.ofNat 8 (digit &&& 0xFF) :: digitBytes isLast n (digit >>> 8)

def digitsBytes : List Nat → List Byte
  | [] => []
  | digit :: digits => digitBytes (digits.length = 0) 4 digit ++ digitsBytes digits

/-- `Bignum::EncodeBignum` of the digits between the positions. -/
def encodeBignum (digits : List UInt8) (isNegative isZero : Bool) :
    Except BignumError (List Byte) := do
  if isZero then return initializeBignumZero
  let digits ← binaryDigits digits
  let data := (digitsBytes digits).map fun byte => if isNegative then ~~~byte else byte
  return setHeader data.length isNegative ++ data.reverse

def encodeVarcharBignum (value : List UInt8) (format : Formatting) :
    Except BignumError (List Byte) :=
  let digits := (value.drop format.startPos).take (format.endPos - format.startPos)
  let isZero := format.isZero ||
    (format.startPos = format.endPos && !format.shouldRoundUp)
  if format.shouldRoundUp then encodeBignum (incrementDecimalString digits) format.isNegative false
  else encodeBignum digits format.isNegative isZero

def varcharToBignum (value : List UInt8) : Except BignumError (List Byte) :=
  match varcharFormatting value with
  | none => .error (.conversion value)
  | some format => encodeVarcharBignum value format

def headerLength (blob : List Byte) : Nat :=
  let isNegative := blob.getD 0 0 &&& 0x80 = 0
  let byte (i : Nat) : Byte := if isNegative then ~~~blob.getD i 0 else blob.getD i 0
  (byte 0 &&& 0x7F).toNat <<< 16 ||| (byte 1).toNat <<< 8 ||| (byte 2).toNat

end Bignum

end MiniDuck
