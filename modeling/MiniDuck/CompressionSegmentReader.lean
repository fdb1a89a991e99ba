import MiniDuck.ByteMemory
import MiniDuck.SwarWord

/-!
# Reading the bytes of a segment

`CompressionSegmentReader` checks every access against the bytes that a
segment has, and arrays against the alignment of their elements. What is
behind the end of the segment is never read.
-/

namespace MiniDuck

/-- A bounds-checked view over the bytes from an address on. -/
structure CompressionSegmentReader where
  address : Nat
  data : Memory UInt8
  size : Nat
  position : Nat
  context : String

namespace CompressionSegmentReader

variable (r : CompressionSegmentReader)

def corrupted (r : CompressionSegmentReader) (message : String) : String :=
  "Corrupted " ++ r.context ++ ": " ++ message

def checkForwardRead (length : Nat) : Except String Unit :=
  if length > r.size - r.position then
    .error (r.corrupted "attempted to read past the end of the segment")
  else .ok ()

def checkRange (offset length : Nat) : Except String Unit :=
  if offset > r.size then .error (r.corrupted "offset is outside the segment")
  else if length > r.size - offset then
    .error (r.corrupted "requested range extends past the end of the segment")
  else .ok ()

def checkAligned (offset alignment : Nat) : Except String Unit :=
  if (r.address + offset) % alignment ≠ 0 then
    .error (r.corrupted "array offset is misaligned")
  else .ok ()

/-- `Read`, of `n` bytes. -/
def read (n : Nat) : Except String (List UInt8 × CompressionSegmentReader) := do
  r.checkForwardRead n
  .ok (r.data.read r.position n, { r with position := r.position + n })

/-- `Get`, of `n` bytes. -/
def get (offset n : Nat) : Except String (List UInt8) := do
  r.checkRange offset n
  .ok (r.data.read offset n)

def readBytesAligned (length alignment : Nat) :
    Except String (List UInt8 × CompressionSegmentReader) := do
  r.checkForwardRead length
  r.checkAligned r.position alignment
  .ok (r.data.read r.position length, { r with position := r.position + length })

/-- `GetArray`, of elements of `n` bytes. -/
def getArray (offset n count : Nat) : Except String (List Nat) := do
  r.checkRange offset 0
  r.checkAligned offset n
  if count > (r.size - offset) / n then
    .error (r.corrupted "array count extends past the end of the segment")
  .ok ((List.range count).map fun i => loadWord (r.data.read (offset + n * i) n))

/-- `GetArray`, of elements that a function loads. -/
def getElements {β : Type} (load : List UInt8 → β) (offset n alignment count : Nat) :
    Except String (Nat → β) := do
  r.checkRange offset 0
  r.checkAligned offset alignment
  if count > (r.size - offset) / n then
    .error (r.corrupted "array count extends past the end of the segment")
  .ok fun i => load (r.data.read (offset + n * i) n)

def getSubReader (offset length : Nat) (context : String) :
    Except String CompressionSegmentReader := do
  r.checkRange offset length
  .ok ⟨r.address + offset, fun i => r.data (offset + i), length, 0, context⟩

end CompressionSegmentReader

end MiniDuck
