import SystemsExperiments.Model.Mmlog.Basic

/-! # Reserving a range and expanding the data file

One step is one atomic operation on the metadata or one `ftruncate`; assignments to
locals and to the thread's `mmlog_errno` ride along with the step before them. -/

namespace SystemsExperiments.Mmlog

/-- Program points of `data_file_expand` and of `file_expand_inner` inside its wait. -/
inductive ExpandPc where
  /-- The compare-exchange on `is_locked`. -/
  | tryLock
  /-- The clock check of `hot_wait_for_cond` after an attempt that returned false. -/
  | retry
  | loadPanicked
  | loadSize
  | ftruncate (newSize : ℕ)
  | storePanicked
  /-- The release after a failed `ftruncate`. -/
  | unlockPanicked
  | storeSize (newSize : ℕ)
  | unlock
  /-- The load of `is_panicked` in `data_file_expand` after the wait succeeded. -/
  | checkPanicked
  deriving DecidableEq, Repr

/-- One step of `data_file_expand(handle, end)`. -/
def dataFileExpand (endOffset : ℕ) (m : LogMetadata) (f : DataFile) (errno : MmlogErr)
    (o : Outcome) : ExpandPc → LogMetadata × DataFile × MmlogErr × Next ExpandPc Bool
  | .tryLock =>
      if m.isLocked then (m, f, .fileExpandInnerLocked, .goto .retry)
      else ({ m with isLocked := true }, f, .ok, .goto .loadPanicked)
  | .retry =>
      match o with
      | .succeed => (m, f, errno, .goto .tryLock)
      | _ => (m, f, errno, .done false)
  | .loadPanicked =>
      -- The source returns here without giving the lock back.
      if m.isPanicked then (m, f, .fileExpandInnerPanicked, .goto .retry)
      else (m, f, errno, .goto .loadSize)
  | .loadSize =>
      if m.fileSize < endOffset then
        (m, f, errno, .goto (.ftruncate (alignedSize endOffset m.chunkSize)))
      else (m, f, errno, .goto .unlock)
  | .ftruncate newSize =>
      match o with
      | .succeed => (m, f.ftruncate newSize, errno, .goto (.storeSize newSize))
      | _ => (m, f, errno, .goto .storePanicked)
  | .storePanicked => ({ m with isPanicked := true }, f, errno, .goto .unlockPanicked)
  | .unlockPanicked =>
      ({ m with isLocked := false }, f, .fileExpandInnerGrow, .goto .checkPanicked)
  | .storeSize newSize => ({ m with fileSize := newSize }, f, errno, .goto .unlock)
  | .unlock => ({ m with isLocked := false }, f, errno, .goto .checkPanicked)
  | .checkPanicked => (m, f, errno, .done (!m.isPanicked))

/-- Program points of `mmlog_checkout`. -/
inductive CheckoutPc where
  | fetchAdd
  | loadSize (start : ℕ)
  | expand (start : ℕ) (pc : ExpandPc)
  deriving DecidableEq, Repr

/-- The local `end` of `mmlog_checkout`. -/
def endOffset (start size : ℕ) : ℕ := u64 (start + size)

/-- One step of `mmlog_checkout(handle, size)`; the value is a start offset or
`LOG_CURSOR_INVALID`. -/
def mmlogCheckout (size : ℕ) (m : LogMetadata) (f : DataFile) (errno : MmlogErr)
    (o : Outcome) : CheckoutPc → LogMetadata × DataFile × MmlogErr × Next CheckoutPc ℕ
  | .fetchAdd =>
      ({ m with cursor := u64 (m.cursor + size) }, f, errno, .goto (.loadSize m.cursor))
  | .loadSize start =>
      if endOffset start size > m.fileSize then (m, f, .ok, .goto (.expand start .tryLock))
      else (m, f, errno, .done start)
  | .expand start pc =>
      let r := dataFileExpand (endOffset start size) m f errno o pc
      (r.1, r.2.1, r.2.2.1,
        match r.2.2.2 with
        | .goto pc' => .goto (.expand start pc')
        | .done true => .done start
        | .done false => .done logCursorInvalid)

end SystemsExperiments.Mmlog
