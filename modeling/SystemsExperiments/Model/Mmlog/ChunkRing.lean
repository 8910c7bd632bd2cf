import SystemsExperiments.Model.Mmlog.Basic

/-! # The ring of mapped chunks of one handle

Ring slots are numbered from the start of the buffer, so a `chunk_info_t**` is a slot
number or NULL. Chunks are numbered in the order they were mapped; a chunk that
`clean_chunks` unmapped or freed keeps its number and says so. -/

namespace SystemsExperiments.Mmlog

/-- A `chunk_info_t*` as stored in a ring slot. -/
inductive ChunkPtr where
  | null
  | pending
  | chunk (id : ℕ)
  deriving DecidableEq, Repr

/-- `chunk_info_t`. The mapping shows the `size` bytes of the file at `startOffset`. -/
structure ChunkInfo where
  isUntracked : Bool
  startOffset : ℕ
  size : ℕ
  refCount : ℕ
  isMapped : Bool
  isFreed : Bool
  deriving DecidableEq, Repr

/-- `chunk_buffer_t`, with the chunks allocated through it. -/
structure ChunkBuffer where
  buffer : ℕ → ChunkPtr
  capacity : ℕ
  head : Option ℕ
  tail : Option ℕ
  headLocked : Bool
  chunks : ℕ → ChunkInfo
  /-- The number of chunks mapped so far. -/
  created : ℕ

namespace ChunkBuffer

/-- The ring as `mmlog_open` returns it: empty slots, the head set, the tail left NULL. -/
def opened (chunkCount : ℕ) : ChunkBuffer where
  buffer := fun _ => .null
  capacity := chunkCount
  head := some 0
  tail := none
  headLocked := false
  chunks := fun _ => ⟨false, 0, 0, 0, false, true⟩
  created := 0

def modifyChunk (r : ChunkBuffer) (id : ℕ) (g : ChunkInfo → ChunkInfo) : ChunkBuffer :=
  { r with chunks := Function.update r.chunks id (g (r.chunks id)) }

/-- An atomic add on `ref_count`. -/
def addRef (r : ChunkBuffer) (id : ℕ) : ChunkBuffer :=
  r.modifyChunk id fun c => { c with refCount := u32 (c.refCount + 1) }

/-- An atomic subtract on `ref_count`, which wraps below zero. -/
def subRef (r : ChunkBuffer) (id : ℕ) : ChunkBuffer :=
  r.modifyChunk id fun c => { c with refCount := u32 (c.refCount + (2 ^ 32 - 1)) }

def setSlot (r : ChunkBuffer) (i : ℕ) (p : ChunkPtr) : ChunkBuffer :=
  { r with buffer := Function.update r.buffer i p }

/-- The slots after a chunk of `size` bytes at `startOffset` was mapped. -/
def mapChunk (r : ChunkBuffer) (startOffset size : ℕ) : ChunkBuffer :=
  { r with
    chunks := Function.update r.chunks r.created ⟨false, startOffset, size, 0, true, false⟩
    created := r.created + 1 }

/-- The number of chunk mappings made and not yet unmapped. -/
def mappedCount (r : ChunkBuffer) : ℕ :=
  ((List.range r.created).filter fun i => (r.chunks i).isMapped).length

def getNextHeadPtr (r : ChunkBuffer) (head : ℕ) : ℕ := (head + 1) % r.capacity

end ChunkBuffer

/-- `is_cursor_in_chunk` on a chunk that is neither NULL nor pending. -/
def isCursorInChunk (c : ChunkInfo) (cursor : ℕ) : Bool :=
  c.startOffset ≤ cursor && cursor < u64 (c.startOffset + c.size)

/-! ## Cleaning -/

/-- Program points of `clean_chunks`. -/
inductive CleanPc where
  | loadTail
  | loadHead (tail : Option ℕ)
  | loadSlot (tail : ℕ) (head : Option ℕ)
  | loadRef (tail id : ℕ)
  | casTail (tail id : ℕ)
  | munmap (id : ℕ)
  | free (id : ℕ)
  deriving DecidableEq, Repr

/-- One step of `clean_chunks(chunks)`, which always returns true. -/
def cleanChunks (r : ChunkBuffer) : CleanPc → ChunkBuffer × Next CleanPc Unit
  | .loadTail => (r, .goto (.loadHead r.tail))
  | .loadHead none => (r, .done ())
  | .loadHead (some tail) => (r, .goto (.loadSlot tail r.head))
  | .loadSlot tail head =>
      match r.buffer tail with
      | .chunk id =>
          if some tail = head then (r, .done ()) else (r, .goto (.loadRef tail id))
      | _ => (r, .done ())
  | .loadRef tail id =>
      if !(r.chunks id).isUntracked && decide ((r.chunks id).refCount > 0) then (r, .done ())
      else (r, .goto (.casTail tail id))
  | .casTail tail id =>
      if r.tail = some tail then
        ({ r with tail := some ((tail + 1) % r.capacity) }, .goto (.munmap id))
      else (r, .goto .loadTail)
  | .munmap id => (r.modifyChunk id fun c => { c with isMapped := false }, .goto (.free id))
  | .free id => (r.modifyChunk id fun c => { c with isFreed := true }, .goto .loadTail)

/-! ## Checking out the chunk of a cursor -/

/-- Program points of `mmlog_rb_checkout`, of `add_new_chunk` and of
`create_chunk_at_cursor`. -/
inductive RbPc where
  /-- The compare-exchange on `head_locked`. -/
  | lock
  /-- The clock check of `hot_wait_for_cond` after a failed attempt. -/
  | retry
  | loadHead
  | loadTail (head : Option ℕ)
  | loadSlot (head : ℕ) (tail : Option ℕ)
  | addRefHead (id : ℕ)
  | unlockHead (id : ℕ)
  /-- `clean_chunks` called because the ring looked full. -/
  | clean (pc : CleanPc)
  | reloadHead
  | reloadTail (head : ℕ)
  | calloc (head next : ℕ)
  | mmap (head next : ℕ)
  | storeRef (head next id : ℕ)
  | storeSlot (head next id : ℕ)
  | casHead (head next id : ℕ)
  /-- The store of NULL after a failed creation. -/
  | clearSlot (next : ℕ)
  | unlockFailed
  | unlockNew (id : ℕ)
  | addRefNew (id : ℕ)
  deriving DecidableEq, Repr

/-- The start of `add_new_chunk(handle, chunks, head_ptr, tail_ptr, cursor)`, up to its
first access to shared memory. -/
def addNewChunk (r : ChunkBuffer) (head : ℕ) (tail : Option ℕ) : RbPc :=
  let next := r.getNextHeadPtr head
  let next := if next ≥ r.capacity then 0 else next
  if some next = tail then .clean .loadTail else .calloc head next

/-- One step of `mmlog_rb_checkout(handle, cursor)`; the value is a chunk or NULL. -/
def mmlogRbCheckout (chunkSize cursor : ℕ) (r : ChunkBuffer) (errno : MmlogErr)
    (o : Outcome) : RbPc → ChunkBuffer × MmlogErr × Next RbPc (Option ℕ)
  | .lock =>
      if r.headLocked then (r, errno, .goto .retry)
      else ({ r with headLocked := true }, errno, .goto .loadHead)
  | .retry =>
      match o with
      | .succeed => (r, errno, .goto .lock)
      | _ => (r, .mmlogRbCheckoutNolock, .done none)
  | .loadHead => (r, errno, .goto (.loadTail r.head))
  | .loadTail head => (r, errno, .goto (.loadSlot (head.getD 0) r.tail))
  | .loadSlot head tail =>
      match r.buffer head with
      | .chunk id =>
          if isCursorInChunk (r.chunks id) cursor then (r, errno, .goto (.addRefHead id))
          else (r, .ok, .goto (addNewChunk r head tail))
      | _ => (r, .ok, .goto (addNewChunk r head tail))
  | .addRefHead id => (r.addRef id, errno, .goto (.unlockHead id))
  | .unlockHead id => ({ r with headLocked := false }, errno, .done (some id))
  | .clean pc =>
      let c := cleanChunks r pc
      (c.1, errno,
        match c.2 with
        | .goto pc' => .goto (.clean pc')
        | .done _ => .goto .reloadHead)
  -- The head is never NULL here; the source would compute with a NULL pointer.
  | .reloadHead => (r, errno, .goto (.reloadTail (r.head.getD 0)))
  | .reloadTail head =>
      if some (r.getNextHeadPtr head) = r.tail then
        (r, .addNewChunkEwait, .goto .unlockFailed)
      else (r, errno, .goto (.calloc head (r.getNextHeadPtr head)))
  | .calloc head next =>
      match o with
      | .succeed => (r, .ok, .goto (.mmap head next))
      | _ => (r, .createChunkAtCursorEnomem, .goto (.clearSlot next))
  | .mmap head next =>
      match o with
      | .succeed =>
          (r.mapChunk (u64 (cursor / chunkSize * chunkSize)) chunkSize, errno,
            .goto (.storeRef head next r.created))
      | _ => (r, .createChunkAtCursorMmap, .goto (.clearSlot next))
  | .storeRef head next id =>
      (r.modifyChunk id fun c => { c with refCount := 1 }, errno,
        .goto (.storeSlot head next id))
  | .storeSlot head next id =>
      (r.setSlot next (.chunk id), errno, .goto (.casHead head next id))
  | .casHead head next id =>
      if r.head = some head then ({ r with head := some next }, errno, .goto (.unlockNew id))
      else (r, errno, .goto (.unlockNew id))
  | .clearSlot next => (r.setSlot next .null, errno, .goto .unlockFailed)
  | .unlockFailed => ({ r with headLocked := false }, errno, .done none)
  | .unlockNew id => ({ r with headLocked := false }, errno, .goto (.addRefNew id))
  | .addRefNew id => (r.addRef id, errno, .done (some id))

end SystemsExperiments.Mmlog
