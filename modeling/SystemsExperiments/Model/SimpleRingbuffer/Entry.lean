import SystemsExperiments.Shared.Bytes
import Mathlib.Data.Option.Basic

/-! # The entries of the ring buffer

An `RBIn` gathers locations and values and writes them down in one block; an `RBOut` reads
such a block and hands its locations to a callback. The members of `Buffer` have no body in
the source: strings are stored with a NUL after each, and the sizes are those of the stored
bytes. -/

namespace SystemsExperiments.SimpleRingbuffer

open Bytes

/-- `sizeof(size_t)`, which is also `sizeof(int64_t)`. -/
def sizeofSize : ℕ := 8

/-- A value stored in a `size_t`. -/
def usize (n : ℕ) : ℕ := n % 2 ^ 64

/-- A bound on the bytes of one process: user addresses are below it. -/
def userSpace : ℕ := 2 ^ 63

/-- The arguments of one `RBIn::push`, and of one call of the `IteratorFunction`. -/
structure Location where
  filename : List UInt8
  name : List UInt8
  line : Int64
  deriving DecidableEq

/-! ## Buffers -/

/-- `Buffer<std::string_view>`. -/
structure StringBuffer where
  buffer : List UInt8
  nElem : ℕ
  deriving DecidableEq

namespace StringBuffer

def empty : StringBuffer := ⟨[], 0⟩

def add (b : StringBuffer) (val : List UInt8) : StringBuffer :=
  ⟨b.buffer ++ (val ++ [0]), b.nElem + 1⟩

def serializedSize (b : StringBuffer) : ℕ := b.buffer.length

end StringBuffer

/-- The bytes of an `int64_t` in memory. -/
def int64Bytes (x : Int64) : List UInt8 := toLE sizeofSize x.toUInt64.toNat

/-! ## Writing -/

/-- The bytes that an entry with these buffers takes up. -/
def blockSize (lines : List Int64) (filenames names : StringBuffer) (values : List Int64) : ℕ :=
  sizeofSize * 7 + sizeofSize * lines.length + filenames.serializedSize + names.serializedSize +
    sizeofSize * values.length

/-- `RBIn`. Its buffers are in the memory of one process. -/
structure RBIn where
  lines : List Int64
  filenames : StringBuffer
  names : StringBuffer
  values : List Int64
  inMemory : blockSize lines filenames names values < userSpace

namespace RBIn

/-- An `RBIn` from its buffers; an allocation beyond the memory throws. -/
def alloc (lines : List Int64) (filenames names : StringBuffer) (values : List Int64) :
    Option RBIn :=
  if h : blockSize lines filenames names values < userSpace then
    some ⟨lines, filenames, names, values, h⟩
  else none

def push (e : RBIn) (l : Location) : Option RBIn :=
  alloc (e.lines ++ [l.line]) (e.filenames.add l.filename) (e.names.add l.name) e.values

/-- An entry with these values after a sequence of pushes. -/
def build (values : List Int64) (pushes : List Location) : Option RBIn := do
  pushes.foldlM push (← alloc [] StringBuffer.empty StringBuffer.empty values)

def serializedSize (e : RBIn) : ℕ :=
  usize (blockSize e.lines e.filenames e.names e.values)

def getSize (e : RBIn) : ℕ := e.lines.length

/-- The bytes that `serialize(write_ptr)` stores from `write_ptr` on. -/
def serialize (e : RBIn) : List UInt8 :=
  let linesOffset := 7 * sizeofSize
  let filenamesOffset := usize (linesOffset + sizeofSize * e.lines.length)
  let namesOffset := usize (filenamesOffset + e.filenames.serializedSize)
  let valuesOffset := usize (namesOffset + e.names.serializedSize)
  [e.serializedSize, e.getSize, e.values.length, linesOffset, filenamesOffset, namesOffset,
      valuesOffset].flatMap (toLE sizeofSize) ++
    (e.lines.flatMap int64Bytes ++ (e.filenames.buffer ++ (e.names.buffer ++
      e.values.flatMap int64Bytes)))

end RBIn

/-! ## Reading -/

/-- `RBOut` after its construction: the size it reports, the values it has read, and the
calls of its callback in order. -/
structure RBOut where
  bufferSize : ℕ
  values : List Int64
  calls : List Location
  deriving DecidableEq

namespace RBOut

def readSize (addr : ℕ) : Reader ℕ := Reader.readLE sizeofSize addr

def readInt64 (addr : ℕ) : Reader Int64 := do
  let n ← readSize addr
  return (UInt64.ofNat n).toInt64

/-- `strlen` and the conversion to `std::string_view` scan until a NUL or a fault. -/
def readString (addr : ℕ) : Reader (List UInt8) := Reader.readCString (2 ^ 64) addr

/-- The loop over the values, from index `i` on. -/
def readValues (valuesOffset : ℕ) : ℕ → ℕ → Reader (List Int64)
  | 0, _ => return []
  | n + 1, i => do
      let v ← readInt64 (usize (valuesOffset + i * sizeofSize))
      let vs ← readValues valuesOffset n (i + 1)
      return v :: vs

/-- The loop over the entries, from index `i` on. -/
def iterate (linesOffset : ℕ) : ℕ → ℕ → ℕ → ℕ → Reader (List Location)
  | 0, _, _, _ => return []
  | n + 1, i, filenames, names => do
      let filename ← readString filenames
      let name ← readString names
      let line ← readInt64 (usize (linesOffset + i * sizeofSize))
      let filenameLen ← readString filenames
      let nameLen ← readString names
      let rest ← iterate linesOffset n (i + 1) (usize (filenames + (filenameLen.length + 1)))
        (usize (names + (nameLen.length + 1)))
      return ⟨filename, name, line⟩ :: rest

/-- `deserialize()`, with addresses counted from `buffer_start`. -/
def deserialize : Reader RBOut := do
  let bufferSize ← readSize 0
  let numEntries ← readSize (1 * sizeofSize)
  let numValues ← readSize (2 * sizeofSize)
  let linesOffset ← readSize (3 * sizeofSize)
  let filenamesOffset ← readSize (4 * sizeofSize)
  let namesOffset ← readSize (5 * sizeofSize)
  let valuesOffset ← readSize (6 * sizeofSize)
  let values ← readValues valuesOffset numValues 0
  let calls ← iterate linesOffset numEntries 0 filenamesOffset namesOffset
  return ⟨bufferSize, values, calls⟩

end RBOut

end SystemsExperiments.SimpleRingbuffer
