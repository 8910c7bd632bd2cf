import SystemsExperiments.Model.SimpleRingbuffer.Ring
import SystemsExperiments.Shared.Interleaving

/-! # A writer and a reader on one ring buffer

Process 0 calls `write`, process 1 calls `read`. Each load, compare-exchange and store of a
position is one step, and so is each byte that `serialize` writes or `deserialize` reads. -/

namespace SystemsExperiments.SimpleRingbuffer

open Bytes Interleaving

/-- Where a process stands. -/
inductive Pc where
  | writerIdle (result : Option Bool)
  | loadWrite (entry : RBIn) (tries : ℕ)
  | loadRead (entry : RBIn) (tries savedWrite : ℕ)
  | compareExchange (entry : RBIn) (tries savedWrite nextWrite : ℕ)
  | serialize (entry : RBIn) (savedWrite written : ℕ)
  | readerIdle (result : Option (Option RBOut))
  | loadWritePos (readPos : ℕ)
  | loadStart
  | deserialize (start : ℕ) (rest : Reader RBOut)
  | loadSavedRead (out : RBOut)
  | storeRead (out : RBOut) (savedRead : ℕ)
  | halted

/-- One step of a process; an idle writer is told what to write, if anything. -/
def next (rb : RingBuffer) : Pc → Option RBIn → RingBuffer × Pc
  | .writerIdle _, some entry => (rb, .loadWrite entry 3)
  | .writerIdle result, none => (rb, .writerIdle result)
  | .loadWrite entry tries, _ => (rb, .loadRead entry tries rb.writePos)
  | .loadRead entry tries savedWrite, _ =>
      let nextWrite := usize (savedWrite + entry.serializedSize)
      if nextWrite < usize (rb.readPos + rb.size) then
        (rb, .compareExchange entry tries savedWrite nextWrite)
      else (rb, .writerIdle (some false))
  | .compareExchange entry tries savedWrite nextWrite, _ =>
      match rb.compareExchange savedWrite (nextWrite % rb.size) with
      | (rb', true) => (rb', .serialize entry savedWrite 0)
      | (rb', false) =>
          if 0 < tries - 1 then (rb', .loadWrite entry (tries - 1))
          else (rb', .writerIdle (some false))
  | .serialize entry savedWrite written, _ =>
      match entry.serialize[written]? with
      | some b =>
          ({ rb with buffer := Circular.put rb.size rb.buffer (savedWrite + written) b },
            .serialize entry savedWrite (written + 1))
      | none => (rb, .writerIdle (some true))
  -- the operands of `==`; nobody else stores `read_pos`, so their order does not matter
  | .readerIdle _, _ => (rb, .loadWritePos rb.readPos)
  | .loadWritePos readPos, _ =>
      if readPos = rb.writePos then (rb, .readerIdle (some none)) else (rb, .loadStart)
  | .loadStart, _ => (rb, .deserialize rb.readPos RBOut.deserialize)
  | .deserialize start rest, _ =>
      match rest with
      | .done out => (rb, .loadSavedRead out)
      | .fault => (rb, .halted)
      | .read addr k => (rb, .deserialize start ((Reader.read addr k).step (rb.view start)))
  | .loadSavedRead out, _ => (rb, .storeRead out rb.readPos)
  | .storeRead out savedRead, _ =>
      ({ rb with readPos := usize (savedRead + out.bufferSize) % rb.size },
        .readerIdle (some (some out)))
  | .halted, _ => (rb, .halted)

abbrev Processes := Sys RingBuffer Pc

/-- The two processes before their first call. -/
def start (rb : RingBuffer) : Processes where
  shared := rb
  thread
    | 0 => .writerIdle none
    | 1 => .readerIdle none
    | _ => .halted

/-- A reader and any number of writers before their first call. -/
def startWriters (rb : RingBuffer) : Processes where
  shared := rb
  thread
    | 0 => .readerIdle none
    | _ => .writerIdle none

/-- The writer has reserved the bytes from `pos` on, or bytes around it, and has not written
all of them yet. -/
def Pc.UnfinishedAt (size pos : ℕ) : Pc → Prop
  | .serialize entry savedWrite written =>
      written < entry.serializedSize ∧ ∃ i < entry.serializedSize, (savedWrite + i) % size = pos
  | _ => False

end SystemsExperiments.SimpleRingbuffer
