import SystemsExperiments.Shared.Interleaving
import SystemsExperiments.Model.Mmlog.Checkout
import SystemsExperiments.Model.Mmlog.ChunkRing

/-! # Threads and processes calling into one log

Every handle has its own ring; all handles share the metadata and the data file. Threads
of one process name the same handle in their calls, processes name different ones. A
handle argument of `none` is a NULL pointer. -/

namespace SystemsExperiments.Mmlog

open Interleaving

/-! ## Placing a record -/

def mmlogCrossCount (start size chunkSize : ℕ) : ℕ :=
  u32 (u64 (u64 (start + size) / chunkSize + (2 ^ 64 - start / chunkSize)))

/-- Whether `mmlog_insert` bypasses the ring and calls `pwrite`. -/
def usesPwrite (start size chunkSize : ℕ) : Bool :=
  decide (mmlogCrossCount start size chunkSize > 1) ||
    (size == chunkSize && start % chunkSize == 0)

/-- The local `current_cursor` of `mmlog_insert` after `written` bytes. -/
def currentCursor (start written : ℕ) : ℕ := u64 (start + written)

/-- The local `bytes_to_write` of one turn of the loop in `mmlog_insert`. -/
def bytesToWrite (start size written chunkSize : ℕ) : ℕ :=
  let current := currentCursor start written
  let chunkEnd := u64 ((current / chunkSize + 1) * chunkSize)
  let rest := size - written
  if u64 (current + rest) > chunkEnd then u64 (chunkEnd + (2 ^ 64 - current)) else rest

/-- What one turn of the loop passes to `write_to_chunk`: a cursor, the offset of its bytes
in the payload, and their number. -/
structure Piece where
  cursor : ℕ
  offset : ℕ
  size : ℕ
  deriving DecidableEq, Repr

/-- The pieces of the `while` loop in `mmlog_insert` from `written` bytes on, every
`write_to_chunk` succeeding; `none` when the loop takes more than `fuel` turns. -/
def insertPieces (start size chunkSize : ℕ) : ℕ → ℕ → Option (List Piece)
  | 0, written => if written < size then none else some []
  | fuel + 1, written =>
      if written < size then
        let n := bytesToWrite start size written chunkSize
        (insertPieces start size chunkSize fuel (u64 (written + n))).map
          (⟨currentCursor start written, written, n⟩ :: ·)
      else some []

/-- The `memcpy` of `write_to_chunk` through the mapping of a chunk. -/
def writeToChunk (f : DataFile) (chunk : ChunkInfo) (p : Piece) (data : Payload) : DataFile :=
  let chunkOffset := u64 (p.cursor + (2 ^ 64 - chunk.startOffset))
  f.store (chunk.startOffset + chunk.size) (chunk.startOffset + chunkOffset) p.size
    fun i => data.byte (p.offset + i)

/-! ## Calls -/

inductive Call where
  | checkout (handle : Option ℕ) (size : ℕ)
  | rbCheckout (handle : Option ℕ) (cursor : ℕ)
  | cleanChunks (handle : Option ℕ)
  | insert (handle : Option ℕ) (data : Option Payload)
  | trim (handle : Option ℕ)

/-- A value returned to the caller. -/
inductive Value where
  | bool (b : Bool)
  | cursor (n : ℕ)
  | chunk (id : Option ℕ)
  | unit
  deriving DecidableEq, Repr

/-- Program points of a thread. In the points of `mmlog_insert` after its checkout, `start`
is the reserved offset and `written` the local `bytes_written`. -/
inductive Pc where
  | idle
  | checkout (h size : ℕ) (pc : CheckoutPc)
  | rbCheckout (h cursor : ℕ) (pc : RbPc)
  | clean (h : ℕ) (pc : CleanPc)
  | insertCheckout (h : ℕ) (data : Payload) (pc : CheckoutPc)
  | insertPwrite (h : ℕ) (data : Payload) (start : ℕ)
  | insertRb (h : ℕ) (data : Payload) (start written : ℕ) (pc : RbPc)
  | insertMemcpy (h : ℕ) (data : Payload) (start written id : ℕ)
  | insertRelease (h : ℕ) (data : Payload) (start written id : ℕ)
  | insertClean (h : ℕ) (data : Payload) (start : ℕ) (pc : CleanPc)
  | trimLoad (h : ℕ)
  | trimFtruncate (h cursor : ℕ)

/-- The shared part of the system. -/
structure Log where
  metadata : LogMetadata
  file : DataFile
  ring : ℕ → ChunkBuffer

def Log.setRing (s : Log) (h : ℕ) (r : ChunkBuffer) : Log :=
  { s with ring := Function.update s.ring h r }

/-- A thread: where it is, its `mmlog_errno`, the calls it has still to make and those it
has made with what they returned, oldest first. -/
structure Thread where
  pc : Pc
  errno : MmlogErr
  todo : List Call
  results : List (Call × Value)

namespace Thread

def goto (th : Thread) (pc : Pc) (errno : MmlogErr) : Thread :=
  { th with pc := pc, errno := errno }

/-- The call returns to the program of the thread. -/
def finish (th : Thread) (call : Call) (v : Value) (errno : MmlogErr) : Thread :=
  { th with pc := .idle, errno := errno, results := th.results ++ [(call, v)] }

/-- The thread makes its next call: the arguments take the width of their parameters and
are checked. -/
def start (th : Thread) : Call → Thread
  | .checkout none size =>
      th.finish (.checkout none size) (.cursor logCursorInvalid) .mmlogCheckoutEinval
  | .checkout (some h) size => th.goto (.checkout h (u64 size) .fetchAdd) .ok
  | .rbCheckout none cursor =>
      th.finish (.rbCheckout none cursor) (.chunk none) .mmlogRbCheckoutEinval
  | .rbCheckout (some h) cursor => th.goto (.rbCheckout h (u64 cursor) .lock) .ok
  | .cleanChunks none => th.finish (.cleanChunks none) (.bool false) .cleanChunksEinval
  | .cleanChunks (some h) => th.goto (.clean h .loadTail) .ok
  | .insert (some h) (some data) =>
      if data.size = 0 then
        th.finish (.insert (some h) (some data)) (.bool false) .mmlogInsertEinval
      else th.goto (.insertCheckout h data .fetchAdd) .ok
  | .insert h data => th.finish (.insert h data) (.bool false) .mmlogInsertEinval
  | .trim none => th.finish (.trim none) .unit .mmlogTrimEinval
  | .trim (some h) => th.goto (.trimLoad h) .ok

/-- The head of the loop in `mmlog_insert`: another piece, or the final cleaning. -/
def insertLoop (th : Thread) (h : ℕ) (data : Payload) (start written : ℕ) : Thread :=
  if written < data.size then th.goto (.insertRb h data start written .lock) .ok
  else th.goto (.insertClean h data start .loadTail) .ok

end Thread

/-- The thread has finished its program. -/
def Thread.halted (th : Thread) : Bool :=
  match th.pc with
  | .idle => th.todo.isEmpty
  | _ => false

/-- What `pwrite` transfers of `size` bytes, and its return value as a `size_t`. -/
def pwriteResult (size : ℕ) : Outcome → ℕ × ℕ
  | .succeed => (size, size)
  | .short n => (min n size, min n size)
  | .fail => (0, 2 ^ 64 - 1)

/-- One step of a thread. -/
def threadStep (s : Log) (th : Thread) (o : Outcome) : Log × Thread :=
  match th.pc with
  | .idle =>
      match th.todo with
      | [] => (s, th)
      | call :: rest => (s, { th with todo := rest }.start call)
  | .checkout h size pc =>
      let r := mmlogCheckout size s.metadata s.file th.errno o pc
      ({ s with metadata := r.1, file := r.2.1 },
        match r.2.2.2 with
        | .goto pc' => th.goto (.checkout h size pc') r.2.2.1
        | .done start => th.finish (.checkout (some h) size) (.cursor start) r.2.2.1)
  | .rbCheckout h cursor pc =>
      let r := mmlogRbCheckout s.metadata.chunkSize cursor (s.ring h) th.errno o pc
      (s.setRing h r.1,
        match r.2.2 with
        | .goto pc' => th.goto (.rbCheckout h cursor pc') r.2.1
        | .done id => th.finish (.rbCheckout (some h) cursor) (.chunk id) r.2.1)
  | .clean h pc =>
      let r := cleanChunks (s.ring h) pc
      (s.setRing h r.1,
        match r.2 with
        | .goto pc' => th.goto (.clean h pc') th.errno
        | .done _ => th.finish (.cleanChunks (some h)) (.bool true) th.errno)
  | .insertCheckout h data pc =>
      let r := mmlogCheckout data.size s.metadata s.file th.errno o pc
      ({ s with metadata := r.1, file := r.2.1 },
        match r.2.2.2 with
        | .goto pc' => th.goto (.insertCheckout h data pc') r.2.2.1
        | .done start =>
            if start = logCursorInvalid then
              th.finish (.insert (some h) (some data)) (.bool false) r.2.2.1
            else if usesPwrite start data.size s.metadata.chunkSize then
              th.goto (.insertPwrite h data start) r.2.2.1
            else th.insertLoop h data start 0)
  | .insertPwrite h data start =>
      let r := pwriteResult data.size o
      ({ s with file := s.file.pwrite start r.1 data.byte },
        if data.size ≠ r.2 then
          th.finish (.insert (some h) (some data)) (.bool false) .mmlogInsertPwrite
        else th.finish (.insert (some h) (some data)) (.bool true) th.errno)
  | .insertRb h data start written pc =>
      let r := mmlogRbCheckout s.metadata.chunkSize (currentCursor start written) (s.ring h)
        th.errno o pc
      (s.setRing h r.1,
        match r.2.2 with
        | .goto pc' => th.goto (.insertRb h data start written pc') r.2.1
        | .done none =>
            th.finish (.insert (some h) (some data)) (.bool false) .writeToChunkEchunk
        | .done (some id) => th.goto (.insertMemcpy h data start written id) r.2.1)
  | .insertMemcpy h data start written id =>
      let chunk := (s.ring h).chunks id
      let chunkOffset :=
        u64 (currentCursor start written + (2 ^ 64 - chunk.startOffset))
      ({ s with
          file := s.file.store (chunk.startOffset + chunk.size)
            (chunk.startOffset + chunkOffset)
            (bytesToWrite start data.size written s.metadata.chunkSize)
            fun i => data.byte (written + i) },
        th.goto (.insertRelease h data start written id) th.errno)
  | .insertRelease h data start written id =>
      (s.setRing h ((s.ring h).subRef id),
        th.insertLoop h data start
          (u64 (written + bytesToWrite start data.size written s.metadata.chunkSize)))
  | .insertClean h data start pc =>
      let r := cleanChunks (s.ring h) pc
      (s.setRing h r.1,
        match r.2 with
        | .goto pc' => th.goto (.insertClean h data start pc') th.errno
        | .done _ => th.finish (.insert (some h) (some data)) (.bool true) th.errno)
  | .trimLoad h => (s, th.goto (.trimFtruncate h s.metadata.cursor) th.errno)
  | .trimFtruncate h cursor =>
      match o with
      | .succeed =>
          ({ s with file := s.file.ftruncate cursor }, th.finish (.trim (some h)) .unit th.errno)
      | _ => (s, th.finish (.trim (some h)) .unit .mmlogTrimFtruncate)

/-! ## Systems -/

abbrev System := Sys Log Thread

/-- The log right after its creation, with every handle freshly opened. -/
def Log.created (cfg : Config) : Log where
  metadata := LogMetadata.created cfg.chunkSize
  file := DataFile.created cfg.chunkSize
  ring := fun h => ChunkBuffer.opened (cfg.chunkCount h)

/-- Thread `t` runs the program `programs[t]`; there is no thread beyond the list. -/
def initial (cfg : Config) (programs : List (List Call)) : System where
  shared := Log.created cfg
  thread := fun t => ⟨.idle, .ok, programs.getD t [], []⟩

abbrev Schedule := List (ℕ × Outcome)

/-- The state that a schedule reaches from the creation of the log. -/
def reached (cfg : Config) (programs : List (List Call)) (sched : Schedule) : System :=
  run threadStep (initial cfg programs) sched

end SystemsExperiments.Mmlog
