import SystemsExperiments.Model.SimpleRingbuffer.Entry
import SystemsExperiments.Shared.Circular

/-! # The ring buffer

`RingBuffer` with its two positions and its mapping, and `write` and `read` called one after
another. -/

namespace SystemsExperiments.SimpleRingbuffer

open Bytes

/-- `ALIGN(x, 4096)` on a `size_t`. -/
def pageAlign (x : ℕ) : ℕ := usize (x + 4096 - 1) &&& (2 ^ 64 - 1 - (4096 - 1))

/-- `RingBuffer`. Both halves of the mapping show the same `size` bytes, so the byte at offset
`a` of it is `buffer (a % size)`. -/
structure RingBuffer where
  size : ℕ
  readPos : ℕ
  writePos : ℕ
  buffer : ℕ → UInt8

namespace RingBuffer

/-- The constructor. A mapping is not empty and lies in user memory; where it cannot be made
the constructor throws. -/
def create (size : ℕ) : Option RingBuffer :=
  let size := pageAlign size
  if 0 < size ∧ size * 2 < userSpace then some ⟨size, 0, 0, fun _ => 0⟩ else none

/-- The memory as seen from offset `start` of the mapping. Accesses outside of the mapping
are taken to fault. -/
def view (rb : RingBuffer) (start : ℕ) : ℕ → Option UInt8 := fun i =>
  let a := usize (start + i)
  if a < rb.size * 2 then some (rb.buffer (a % rb.size)) else none

/-- `write_pos.compare_exchange_strong`. -/
def compareExchange (rb : RingBuffer) (savedWrite nextWrite : ℕ) : RingBuffer × Bool :=
  if rb.writePos = savedWrite then ({ rb with writePos := nextWrite }, true) else (rb, false)

/-- The loop of `write`: the position of the reserved bytes, or nothing where it fails. -/
def reserve (serializedSz : ℕ) : ℕ → RingBuffer → RingBuffer × Option ℕ
  | 0, rb => (rb, none)
  | tries + 1, rb =>
      let savedWrite := rb.writePos
      let savedRead := rb.readPos
      let nextWrite := usize (savedWrite + serializedSz)
      if nextWrite < usize (savedRead + rb.size) then
        match rb.compareExchange savedWrite (nextWrite % rb.size) with
        | (rb', true) => (rb', some savedWrite)
        | (rb', false) => reserve serializedSz tries rb'
      else (rb, none)

def write (rb : RingBuffer) (entry : RBIn) : RingBuffer × Bool :=
  match reserve entry.serializedSize 3 rb with
  | (rb', some savedWrite) =>
      ({ rb' with buffer := Circular.store rb'.size rb'.buffer savedWrite entry.serialize }, true)
  | (rb', none) => (rb', false)

/-- `read`: the entry it delivers, if any; nothing at all where it faults. -/
def read (rb : RingBuffer) : Option (RingBuffer × Option RBOut) :=
  if rb.readPos = rb.writePos then some (rb, none)
  else do
    let out ← RBOut.deserialize.run (rb.view rb.readPos)
    let serializedSz := out.bufferSize
    let nextRead := usize (rb.readPos + serializedSz)
    return ({ rb with readPos := nextRead % rb.size }, some out)

end RingBuffer

/-! ## Sequences of calls -/

/-- An `RBIn` together with the pushes that made it. -/
structure Entry where
  values : List Int64
  pushes : List Location
  input : RBIn
  built : RBIn.build values pushes = some input

inductive Call where
  | write (entry : Entry)
  | read

inductive Outcome where
  | wrote (accepted : Bool)
  | delivered (calls : List Location)
  | nothing
  | fault

/-- One call, and what its caller sees of it. -/
def call (rb : RingBuffer) : Call → RingBuffer × Outcome
  | .write entry => ((rb.write entry.input).1, .wrote (rb.write entry.input).2)
  | .read =>
      match rb.read with
      | some (rb', some out) => (rb', .delivered out.calls)
      | some (rb', none) => (rb', .nothing)
      | none => (rb, .fault)

end SystemsExperiments.SimpleRingbuffer
